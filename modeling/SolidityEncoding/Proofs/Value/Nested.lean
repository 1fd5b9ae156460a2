import SolidityEncoding.Eval
import SolidityEncoding.Proofs.Fallible
import SolidityEncoding.Proofs.Value.TotalMap

/-!
# Maps of maps

A map whose values are maps again is read along a path of keys and written at the end of one.
`Value.read` and `Value.write` go down one level for each key; on its way up a write puts the map
that it has written back into the map that holds it.

A write that succeeds is read back at its own path (`CanonicalAlong.read_write_self`) and is not
seen along a path that parts from its own (`CanonicalAlong.read_write_of_parts`).  On a value that
is a map everywhere down to the length of the path (`Value.NestedMap`) writes succeed; there paths
of the same length (`exists_read_write`) and shorter ones (`exists_read_write_of_lt`) are cases of
the two.
-/

namespace SolidityEncoding.Value

/-- The value at the end of a path of keys. -/
def read (value : Value) : List Value → Except EvalError Value
  | [] => .ok value
  | key :: path => do ((← value.asMap).get key).read path

/-- The value that differs from another by holding `written` at the end of a path of keys. -/
def write (value : Value) (path : List Value) (written : Value) : Except EvalError Value :=
  match path with
  | [] => .ok written
  | key :: path => do
    let m ← value.asMap
    return (m.set key (← (m.get key).write path written)).toValue

/-- A value is a map to a depth: it is a map in the form that `TotalMap.set` keeps, and so are its
default and the values of its entries, down to that many levels. -/
def NestedMap : Nat → Value → Prop
  | 0, _ => True
  | depth + 1, value => ∃ m : TotalMap, value = m.toValue ∧ m.Canonical ∧
    NestedMap depth m.default ∧ ∀ entry ∈ m.entries, NestedMap depth entry.2

variable {m : TotalMap} {key value value' written : Value} {keys path : List Value} {depth : Nat}

theorem asMap_toValue (m : TotalMap) : m.toValue.asMap = .ok m := rfl

theorem read_nil (value : Value) : value.read [] = .ok value := rfl

theorem read_toValue_cons (m : TotalMap) (key : Value) (path : List Value) :
    m.toValue.read (key :: path) = (m.get key).read path := rfl

theorem write_nil (value written : Value) : value.write [] written = .ok written := rfl

theorem write_cons (value : Value) (key : Value) (path : List Value) (written : Value) :
    value.write (key :: path) written = (do
      let m ← value.asMap
      return (m.set key (← (m.get key).write path written)).toValue) := rfl

/-- What has been written to is a map. -/
theorem exists_toValue_of_write (hne : keys ≠ []) (h : value.write keys written = .ok value') :
    ∃ m : TotalMap, value' = m.toValue := by
  cases keys with
  | nil => exact absurd rfl hne
  | cons key keys =>
    simp only [write_cons, bind_eq_ok_iff] at h
    obtain ⟨m, -, inner, -, hset⟩ := h
    exact ⟨_, (Except.ok.inj hset).symm⟩

/-- A value is a map in the form that `TotalMap.set` keeps at every step of a path. -/
def CanonicalAlong : List Value → Value → Prop
  | [], _ => True
  | key :: path, value => ∃ m : TotalMap, value = m.toValue ∧ m.Canonical ∧
    CanonicalAlong path (m.get key)

namespace CanonicalAlong

/-- The last step of a write puts a map that was written inside back in its place. -/
theorem exists_set_of_write (h : CanonicalAlong (key :: keys) value)
    (hwrite : value.write (key :: keys) written = .ok value') :
    ∃ (m : TotalMap) (inner : Value), value = m.toValue ∧ m.Canonical ∧
      CanonicalAlong keys (m.get key) ∧ (m.get key).write keys written = .ok inner ∧
      value' = (m.set key inner).toValue := by
  obtain ⟨m, rfl, hm, hget⟩ := h
  rw [write_cons, asMap_toValue, ok_bind, bind_eq_ok_iff] at hwrite
  obtain ⟨inner, hinner, hset⟩ := hwrite
  exact ⟨m, inner, rfl, hm, hget, hinner, (Except.ok.inj hset).symm⟩

/-- A write is read back. -/
theorem read_write_self (h : CanonicalAlong keys value)
    (hwrite : value.write keys written = .ok value') : value'.read keys = .ok written := by
  induction keys generalizing value value' with
  | nil => exact hwrite.symm
  | cons key keys ih =>
    obtain ⟨m, inner, rfl, hm, hget, hinner, rfl⟩ := h.exists_set_of_write hwrite
    rw [read_toValue_cons, TotalMap.get_set_self hm]
    exact ih hget hinner

/-- A write is not seen along a path that parts from its own: neither goes on from the end of the
other. -/
theorem read_write_of_parts (h : CanonicalAlong keys value)
    (hwrite : value.write keys written = .ok value') (hpath : ¬ path <+: keys)
    (hkeys : ¬ keys <+: path) : value'.read path = value.read path := by
  induction keys generalizing value value' path with
  | nil => exact absurd List.nil_prefix hkeys
  | cons key keys ih =>
    cases path with
    | nil => exact absurd List.nil_prefix hpath
    | cons other path =>
      obtain ⟨m, inner, rfl, hm, hget, hinner, rfl⟩ := h.exists_set_of_write hwrite
      rw [read_toValue_cons, read_toValue_cons]
      by_cases hkey : key = other
      · -- The paths part further down, and there the map inside was written.
        subst hkey
        rw [List.cons_prefix_cons] at hpath hkeys
        rw [TotalMap.get_set_self hm]
        exact ih hget hinner (fun hp => hpath ⟨rfl, hp⟩) (fun hk => hkeys ⟨rfl, hk⟩)
      · rw [TotalMap.get_set_of_ne hm hkey]

end CanonicalAlong

namespace NestedMap

/-- One level of a nested map. -/
theorem exists_toValue (h : NestedMap (depth + 1) value) :
    ∃ m : TotalMap, value = m.toValue ∧ m.Canonical ∧ ∀ key, NestedMap depth (m.get key) := by
  obtain ⟨m, rfl, hm, hdefault, hentries⟩ := h
  exact ⟨m, rfl, hm, TotalMap.get_of_forall hdefault hentries⟩

/-- Reading goes down as far as there are maps. -/
theorem exists_read (path : List Value) (h : NestedMap (path.length + depth) value) :
    ∃ found, value.read path = .ok found ∧ NestedMap depth found := by
  induction path generalizing value with
  | nil => exact ⟨value, read_nil value, by rwa [List.length_nil, Nat.zero_add] at h⟩
  | cons key path ih =>
    rw [List.length_cons, Nat.succ_add] at h
    obtain ⟨m, rfl, -, hget⟩ := h.exists_toValue
    exact ih (hget key)

/-- A write succeeds on maps down to its cell. -/
theorem exists_write (keys : List Value) (h : NestedMap keys.length value) (written : Value) :
    ∃ value', value.write keys written = .ok value' := by
  induction keys generalizing value with
  | nil => exact ⟨written, write_nil value written⟩
  | cons key keys ih =>
    obtain ⟨m, rfl, -, hget⟩ := h.exists_toValue
    obtain ⟨inner, hinner⟩ := ih (hget key)
    exact ⟨_, by rw [write_cons, asMap_toValue, ok_bind, hinner]; rfl⟩

theorem canonicalAlong (keys : List Value) (h : NestedMap keys.length value) :
    CanonicalAlong keys value := by
  induction keys generalizing value with
  | nil => trivial
  | cons key keys ih =>
    obtain ⟨m, rfl, hm, hget⟩ := h.exists_toValue
    exact ⟨m, rfl, hm, ih (hget key)⟩

/-- Read over write: along a path of the same length the written value is read if the path is the
written one, and otherwise what was read before. -/
theorem exists_read_write (h : NestedMap keys.length value)
    (hwrite : value.write keys written = .ok value') (hpath : path.length = keys.length) :
    ∃ old, value.read path = .ok old ∧
      value'.read path = .ok (if path = keys then written else old) := by
  have hdeep : NestedMap (path.length + 0) value := hpath ▸ h
  obtain ⟨old, hold, -⟩ := hdeep.exists_read path
  refine ⟨old, hold, ?_⟩
  split
  · next heq => rw [heq, (h.canonicalAlong keys).read_write_self hwrite]
  · next hne =>
    rw [(h.canonicalAlong keys).read_write_of_parts hwrite, hold]
    · exact fun hp => hne (hp.eq_of_length hpath)
    · exact fun hk => hne (hk.eq_of_length hpath.symm).symm

/-- Along a shorter path there is a map, and it is the one from before unless the written path goes
through it. -/
theorem exists_read_write_of_lt (h : NestedMap keys.length value)
    (hwrite : value.write keys written = .ok value') (hpath : path.length < keys.length)
    (hparts : ¬ path <+: keys) :
    ∃ inner : TotalMap, value.read path = .ok inner.toValue ∧
      value'.read path = .ok inner.toValue := by
  obtain ⟨rest, hrest⟩ := Nat.exists_eq_add_of_lt hpath
  have hdeep : NestedMap (path.length + (rest + 1)) value := hrest ▸ h
  obtain ⟨found, hfound, hinner⟩ := hdeep.exists_read path
  obtain ⟨inner, rfl, -⟩ := hinner.exists_toValue
  refine ⟨inner, hfound, ?_⟩
  rw [(h.canonicalAlong keys).read_write_of_parts hwrite hparts, hfound]
  exact fun hk => absurd hk.length_le (Nat.not_le.2 hpath)

end NestedMap

end SolidityEncoding.Value
