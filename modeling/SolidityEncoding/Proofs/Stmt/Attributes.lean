import Mathlib.Algebra.Ring.Parity
import Mathlib.Data.List.Induction
import SolidityEncoding.Proofs.Expr.Normal
import SolidityEncoding.Proofs.Text.Numeral
import SolidityEncoding.Stmt.Printer

/-!
# The text of attributes

What is written between the double quotes of an argument has a backslash before each quote and each
backslash.  A text so written closes with the first quote that an even number of backslashes stands
before (`Closed`), wherever it is written, and is restored by dropping the backslashes that escape
(`unescape_flatMap_escapeChar`).  With that an argument ends where its text says, whatever stands
between its quotes, and so do an attribute and a list of attributes: different ones have different
texts (`text_unambiguous`).
-/

namespace SolidityEncoding

open Text

namespace Attribute

/-! ### Escapes -/

/-- What is written for a character of a text. -/
def escapeChar (c : Char) : List Char :=
  if c = '\\' then ['\\', '\\'] else if c = '"' then ['\\', '"'] else [c]

/-- No backslash is a quote, so that the two replacements do not meet and are one pass. -/
theorem toList_escape (text : String) : (escape text).toList = text.toList.flatMap escapeChar := by
  rw [escape, String.toList_ofList, withBackslash, withBackslash, List.flatMap_assoc]
  refine congrArg (List.flatMap · text.toList) (funext fun c => ?_)
  by_cases hbackslash : c = '\\'
  · subst hbackslash
    rfl
  · rw [if_neg hbackslash, List.flatMap_singleton, escapeChar, if_neg hbackslash]

theorem escapeChar_of_ne {c : Char} (hbackslash : c ≠ '\\') (hquote : c ≠ '"') :
    escapeChar c = [c] := by
  rw [escapeChar, if_neg hbackslash, if_neg hquote]

/-- The text that an escaped text stands for: a character after a backslash stands for itself. -/
def unescape : List Char → List Char
  | '\\' :: c :: cs => c :: unescape cs
  | c :: cs => c :: unescape cs
  | [] => []

theorem unescape_cons {c : Char} (h : c ≠ '\\') (cs : List Char) :
    unescape (c :: cs) = c :: unescape cs := by
  cases cs with
  | nil => rw [unescape]; simp
  | cons d cs => rw [unescape]; simpa using h

theorem unescape_flatMap_escapeChar (cs : List Char) : unescape (cs.flatMap escapeChar) = cs := by
  induction cs with
  | nil => rfl
  | cons c cs ih =>
    rw [List.flatMap_cons]
    by_cases hbackslash : c = '\\'
    · subst hbackslash
      exact congrArg ('\\' :: ·) ih
    by_cases hquote : c = '"'
    · subst hquote
      exact congrArg ('"' :: ·) ih
    rw [escapeChar_of_ne hbackslash hquote, List.singleton_append, unescape_cons hbackslash, ih]

/-! ### Quotes -/

/-- The number of backslashes that a text ends with. -/
def backslashes (cs : List Char) : Nat := (cs.reverse.takeWhile (· == '\\')).length

theorem backslashes_concat (cs : List Char) (c : Char) :
    backslashes (cs ++ [c]) = if c = '\\' then backslashes cs + 1 else 0 := by
  rw [backslashes, List.reverse_append, List.reverse_singleton, List.singleton_append]
  split
  · next h => rw [List.takeWhile_cons_of_pos (by simpa using h), List.length_cons, backslashes]
  · next h => rw [List.takeWhile_cons_of_neg (by simpa using h), List.length_nil]

/-- A text between quotes is closed: every quote in it comes after an odd number of backslashes, and
the quote behind it does not. -/
structure Closed (content : List Char) : Prop where
  inside : ∀ before after, content = before ++ '"' :: after → Odd (backslashes before)
  behind : ¬Odd (backslashes content)

namespace Closed

variable {xs ys : List Char}

theorem nil : Closed [] where
  inside before after h := absurd h (by simp)
  behind := by decide

/-- A quote in a text and its continuation is in either of them. -/
theorem exists_of_append_eq {tail before after : List Char}
    (h : xs ++ tail = before ++ '"' :: after) :
    (∃ inner, xs = before ++ '"' :: inner) ∨
      ∃ front, before = xs ++ front ∧ tail = front ++ '"' :: after := by
  rcases List.append_eq_append_iff.1 h with ⟨front, hbefore, htail⟩ | ⟨inner, hxs, htail⟩
  · exact .inr ⟨front, hbefore, htail⟩
  · cases inner with
    | nil => exact .inr ⟨[], by rw [hxs, List.append_nil, List.append_nil], htail.symm⟩
    | cons c inner =>
      cases (List.cons_eq_cons.1 htail).1
      exact .inl ⟨inner, hxs⟩

theorem append_plain (h : Closed xs) {c : Char} (hbackslash : c ≠ '\\') (hquote : c ≠ '"') :
    Closed (xs ++ [c]) where
  inside before after heq := by
    rcases exists_of_append_eq heq with ⟨inner, hxs⟩ | ⟨front, -, htail⟩
    · exact h.inside before inner hxs
    · have hmem : '"' ∈ [c] := htail ▸ List.mem_append_right front List.mem_cons_self
      exact absurd (List.mem_singleton.1 hmem).symm hquote
  behind := by
    rw [backslashes_concat, if_neg hbackslash]
    decide

theorem append_escaped (h : Closed xs) (c : Char) : Closed (xs ++ ['\\', c]) where
  inside before after heq := by
    rcases exists_of_append_eq heq with ⟨inner, hxs⟩ | ⟨front, rfl, htail⟩
    · exact h.inside before inner hxs
    · -- the quote is the character that the backslash escapes
      have hfront : front = ['\\'] := by
        match front, htail with
        | [_], htail => rw [(List.cons_eq_cons.1 htail).1]
        | [], htail => exact absurd htail (by simp)
        | _ :: _ :: _, htail => exact absurd (congrArg List.length htail) (by simp)
      rw [hfront, backslashes_concat, if_pos rfl]
      exact (Nat.not_odd_iff_even.1 h.behind).add_one
  behind := by
    rw [List.append_cons, backslashes_concat, backslashes_concat, if_pos rfl]
    split
    · rw [Nat.not_odd_iff_even]
      exact (Nat.not_odd_iff_even.1 h.behind).add_one.add_one
    · decide

theorem flatMap_escapeChar (cs : List Char) : Closed (cs.flatMap escapeChar) := by
  induction cs using List.reverseRecOn with
  | nil => exact nil
  | append_singleton cs c ih =>
    rw [List.flatMap_append, List.flatMap_singleton, escapeChar]
    split
    · exact ih.append_escaped '\\'
    split
    · exact ih.append_escaped '"'
    · next hbackslash hquote => exact ih.append_plain hbackslash hquote

/-- A closed text does not go on as another one before its quote. -/
theorem eq_nil_of_append {tail rest rest' : List Char} (hxs : Closed xs)
    (happend : Closed (xs ++ tail)) (h : '"' :: rest = tail ++ '"' :: rest') : tail = [] := by
  cases tail with
  | nil => rfl
  | cons c tail =>
    cases (List.cons_eq_cons.1 h).1
    exact absurd (happend.inside xs tail rfl) hxs.behind

/-- A closed text ends at its quote, whatever comes after. -/
theorem append_inj {rest rest' : List Char} (hxs : Closed xs) (hys : Closed ys)
    (h : xs ++ '"' :: rest = ys ++ '"' :: rest') : xs = ys ∧ rest = rest' := by
  have heq : xs = ys := by
    rcases List.append_eq_append_iff.1 h with ⟨tail, rfl, htail⟩ | ⟨tail, rfl, htail⟩
    · rw [hxs.eq_nil_of_append hys htail, List.append_nil]
    · rw [hys.eq_nil_of_append hxs htail, List.append_nil]
  subst heq
  exact ⟨rfl, (List.cons_eq_cons.1 (List.append_cancel_left h)).2⟩

end Closed

end Attribute

/-! ### Arguments -/

namespace AttributeArg

open Attribute

theorem toList_render_text (text : String) : (AttributeArg.text text).render.toList =
    '"' :: (text.toList.flatMap escapeChar ++ ['"']) := by
  simp only [render, String.toList_append, toList_escape]
  rfl

/-- The first character tells which kind of argument it is. -/
theorem exists_head_render (a : AttributeArg) : ∃ c cs, a.render.toList = c :: cs ∧
    (isNumeralChar c = true ↔ ∃ value, a = .int value) := by
  cases a with
  | int value =>
    obtain ⟨c, cs, hvalue⟩ := List.exists_cons_of_ne_nil (toList_toString_int_ne_nil value)
    have hc : c ∈ (toString value).toList := hvalue ▸ List.mem_cons_self
    exact ⟨c, cs, hvalue, iff_of_true (isNumeralChar_of_mem_toString hc) ⟨value, rfl⟩⟩
  | text text => exact ⟨'"', _, toList_render_text text, iff_of_false (by decide) (by simp)⟩

/-- An argument ends where no numeral goes on, whatever stands between its quotes. -/
theorem render_append_inj {a b : AttributeArg} {rest rest' : List Char}
    (hrest : ∀ c ∈ rest.head?, isNumeralChar c = false)
    (hrest' : ∀ c ∈ rest'.head?, isNumeralChar c = false)
    (h : a.render.toList ++ rest = b.render.toList ++ rest') : a = b ∧ rest = rest' := by
  have hkind : (∃ value, a = .int value) ↔ ∃ value, b = .int value := by
    obtain ⟨c, cs, ha, hc⟩ := exists_head_render a
    obtain ⟨d, ds, hb, hd⟩ := exists_head_render b
    rw [ha, hb] at h
    rw [← hc, ← hd, (List.cons_eq_cons.1 h).1]
  cases a with
  | int i =>
    obtain ⟨j, rfl⟩ := hkind.1 ⟨i, rfl⟩
    obtain ⟨hnumeral, hrests⟩ := append_inj_of_head (fun _ => isNumeralChar_of_mem_toString) hrest
      (fun _ => isNumeralChar_of_mem_toString) hrest' h
    have hread := congrArg integer? (String.toList_inj.1 hnumeral)
    rw [integer?_toString, integer?_toString, Option.some.injEq] at hread
    exact ⟨congrArg _ hread, hrests⟩
  | text s =>
    cases b with
    | int j => exact absurd (hkind.2 ⟨j, rfl⟩) (by simp)
    | text t =>
      rw [toList_render_text, toList_render_text] at h
      simp only [List.cons_append, List.append_assoc, List.nil_append, List.cons.injEq,
        true_and] at h
      obtain ⟨hcontent, hrests⟩ := (Closed.flatMap_escapeChar _).append_inj
        (Closed.flatMap_escapeChar _) h
      have htext := congrArg unescape hcontent
      rw [unescape_flatMap_escapeChar, unescape_flatMap_escapeChar] at htext
      exact ⟨congrArg _ (String.toList_inj.1 htext), hrests⟩

end AttributeArg

namespace Attribute

/-! ### Attributes -/

/-- The name of an attribute is a row of word characters. -/
def HasWordName (a : Attribute) : Prop := ∀ c ∈ a.name.toList, isWordChar c = true

instance (a : Attribute) : Decidable a.HasWordName := List.decidableBAll _ a.name.toList

/-- The text of the arguments after the first. -/
def furtherArgs (args : List AttributeArg) : List Char :=
  args.flatMap fun arg => ',' :: ' ' :: arg.render.toList

/-- The text between the name of an attribute and its end. -/
def argsText : List AttributeArg → List Char
  | [] => []
  | arg :: rest => ' ' :: (arg.render.toList ++ furtherArgs rest)

theorem toList_intercalate_cons (arg : AttributeArg) (rest : List AttributeArg) :
    (", ".intercalate ((arg :: rest).map AttributeArg.render)).toList =
      arg.render.toList ++ furtherArgs rest := by
  induction rest generalizing arg with
  | nil => simp [furtherArgs]
  | cons next rest ih =>
    rw [List.map_cons, String.intercalate_cons_of_ne_nil (by simp), String.toList_append,
      String.toList_append, ih next]
    simp [furtherArgs]

theorem toList_render (a : Attribute) :
    a.render.toList = '{' :: ':' :: (a.name.toList ++ (argsText a.args ++ ['}'])) := by
  obtain ⟨name, args⟩ := a
  cases args with
  | nil => simp [render, argsText]
  | cons arg rest =>
    simp only [render, List.isEmpty_cons, Bool.false_eq_true, if_false, String.toList_append,
      toList_intercalate_cons, argsText]
    simp

theorem furtherArgs_append_inj {xs ys : List AttributeArg} {rest rest' : List Char}
    (h : furtherArgs xs ++ '}' :: rest = furtherArgs ys ++ '}' :: rest') :
    xs = ys ∧ rest = rest' := by
  -- what follows an argument is no part of a numeral
  have hhead (args : List AttributeArg) (rest : List Char) :
      ∀ c ∈ (furtherArgs args ++ '}' :: rest).head?, isNumeralChar c = false := by
    intro c hc
    cases args with
    | nil | cons =>
      cases hc
      decide
  induction xs generalizing ys with
  | nil =>
    cases ys with
    | nil => exact ⟨rfl, (List.cons_eq_cons.1 h).2⟩
    | cons y ys => exact absurd (List.cons_eq_cons.1 h).1 (by decide)
  | cons x xs ih =>
    cases ys with
    | nil => exact absurd (List.cons_eq_cons.1 h).1 (by decide)
    | cons y ys =>
      simp only [furtherArgs, List.flatMap_cons, List.cons_append, List.append_assoc,
        List.cons.injEq, true_and] at h
      obtain ⟨rfl, hrest⟩ := AttributeArg.render_append_inj (hhead xs rest) (hhead ys rest') h
      obtain ⟨rfl, hrests⟩ := ih hrest
      exact ⟨rfl, hrests⟩

theorem argsText_append_inj {xs ys : List AttributeArg} {rest rest' : List Char}
    (h : argsText xs ++ '}' :: rest = argsText ys ++ '}' :: rest') : xs = ys ∧ rest = rest' := by
  match xs, ys with
  | [], [] => exact ⟨rfl, (List.cons_eq_cons.1 h).2⟩
  | [], _ :: _ | _ :: _, [] => exact absurd (List.cons_eq_cons.1 h).1 (by decide)
  | _ :: _, _ :: _ => exact furtherArgs_append_inj (congrArg (',' :: ·) h)

/-- An attribute ends at its brace, whatever its arguments are. -/
theorem render_append_inj {a b : Attribute} {rest rest' : List Char}
    (ha : a.HasWordName) (hb : b.HasWordName)
    (h : a.render.toList ++ rest = b.render.toList ++ rest') : a = b ∧ rest = rest' := by
  -- what follows a name is no part of a word
  have hhead (args : List AttributeArg) (rest : List Char) :
      ∀ c ∈ (argsText args ++ '}' :: rest).head?, isWordChar c = false := by
    intro c hc
    cases args with
    | nil | cons =>
      cases hc
      decide
  obtain ⟨name, args⟩ := a
  obtain ⟨name', args'⟩ := b
  simp only [toList_render, List.cons_append, List.append_assoc, List.nil_append, List.cons.injEq,
    true_and] at h
  obtain ⟨hname, hargs⟩ := append_inj_of_head ha (hhead args rest) hb (hhead args' rest') h
  obtain ⟨rfl, hrests⟩ := argsText_append_inj hargs
  exact ⟨congrArg (Attribute.mk · args) (String.toList_inj.1 hname), hrests⟩

theorem toList_renderAll_cons (a : Attribute) (rest : List Attribute) :
    (renderAll (a :: rest)).toList = a.render.toList ++ ' ' :: (renderAll rest).toList := by
  simp [renderAll]

/-- A list of attributes ends where no attribute begins. -/
theorem renderAll_append_inj {as bs : List Attribute} {rest rest' : List Char}
    (has : ∀ a ∈ as, a.HasWordName) (hbs : ∀ b ∈ bs, b.HasWordName)
    (hrest : ∀ c ∈ rest.head?, c ≠ '{') (hrest' : ∀ c ∈ rest'.head?, c ≠ '{')
    (h : (renderAll as).toList ++ rest = (renderAll bs).toList ++ rest') :
    as = bs ∧ rest = rest' := by
  have hhead (a : Attribute) (as : List Attribute) (rest : List Char) :
      ((renderAll (a :: as)).toList ++ rest).head? = some '{' := by
    rw [toList_renderAll_cons, toList_render]
    rfl
  induction as generalizing bs with
  | nil =>
    cases bs with
    | nil => exact ⟨rfl, h⟩
    | cons b bs => exact absurd rfl (hrest _ ((congrArg List.head? h).trans (hhead b bs rest')))
  | cons a as ih =>
    cases bs with
    | nil => exact absurd rfl (hrest' _ ((congrArg List.head? h).symm.trans (hhead a as rest)))
    | cons b bs =>
      rw [List.forall_mem_cons] at has hbs
      rw [toList_renderAll_cons, toList_renderAll_cons, List.append_assoc, List.append_assoc] at h
      obtain ⟨rfl, htail⟩ := render_append_inj has.1 hbs.1 h
      obtain ⟨rfl, hrests⟩ := ih has.2 hbs.2 (List.cons_eq_cons.1 htail).2
      exact ⟨rfl, hrests⟩

/-- Attributes cannot be confused: lists of attributes whose names are rows of word characters have
the same text only if they are equal, whatever their arguments are.  What is printed for a text is
closed between its two quotes, and stands for the text. -/
theorem text_unambiguous {as bs : List Attribute}
    (has : ∀ a ∈ as, a.HasWordName) (hbs : ∀ b ∈ bs, b.HasWordName) :
    (renderAll as = renderAll bs ↔ as = bs) ∧
      ∀ text : String, ∃ content : List Char,
        (AttributeArg.text text).render.toList = '"' :: (content ++ ['"']) ∧
          Closed content ∧ unescape content = text.toList := by
  constructor
  · constructor
    · intro h
      exact (renderAll_append_inj has hbs (by simp) (by simp)
        (congrArg (String.toList · ++ []) h)).1
    · exact congrArg renderAll
  · intro text
    exact ⟨_, AttributeArg.toList_render_text text, Closed.flatMap_escapeChar _,
      unescape_flatMap_escapeChar _⟩

/-- One text that ends in a backslash and two texts: the quotes and the comma inside do not make
them the same. -/
theorem text_unambiguous_backslash :
    renderAll [⟨"msg", [.text "a\\\", \"b"]⟩] ≠ renderAll [⟨"msg", [.text "a\\", .text "b"]⟩] :=
  mt (text_unambiguous (by decide) (by decide)).1.1 (by decide)

end Attribute

end SolidityEncoding
