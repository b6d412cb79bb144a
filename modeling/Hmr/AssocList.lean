import Mathlib.Logic.Basic

/-!
# Association lists with repeated keys

A list of pairs in which a key may occur more than once, compared by some `same` that need
not be equality. Reading gives the first value of the key, setting replaces that value
where it stands, adding appends, and deleting removes every pair of the key. So a key can
be read back after it was set, and is gone after it was deleted, but after it was added it
reads what it read before.

What is asked of `same` is only what a law needs: most laws need nothing, and reading back
that a key is the same as itself and as what is the same as it.

`Tombstone` is the representation of such a list by a table in which entries are marked
instead of removed: what a table stands for is the list of its live entries, and each
operation on the table is the operation on that list. The positions of the table are kept
by all of them, which is what the marks are for.
-/

namespace Hmr

variable {K V : Type}

namespace Assoc

/-- The first value of a key. -/
def get? (same : K → K → Bool) (l : List (K × V)) (k : K) : Option V :=
  (l.find? fun p => same p.1 k).map Prod.snd

/-- Replace the first value of a key, or append the pair. -/
def set (same : K → K → Bool) : List (K × V) → K → V → List (K × V)
  | [], k, v => [(k, v)]
  | p :: l, k, v => if same p.1 k then (p.1, v) :: l else p :: set same l k v

/-- Append a pair. -/
def add (l : List (K × V)) (k : K) (v : V) : List (K × V) := l ++ [(k, v)]

/-- Remove every pair of a key. -/
def delete (same : K → K → Bool) (l : List (K × V)) (k : K) : List (K × V) :=
  l.filter fun p => !same p.1 k

/-- Some pair has that key. -/
def has (same : K → K → Bool) (l : List (K × V)) (k : K) : Bool :=
  l.any fun p => same p.1 k

variable {same : K → K → Bool}

/-- Setting a key that is not there adds it. -/
theorem set_of_not_has {l : List (K × V)} {k : K} (h : has same l k = false) (v : V) :
    set same l k v = add l k v := by
  induction l with
  | nil => rfl
  | cons p l ih =>
    rw [has, List.any_cons, Bool.or_eq_false_iff] at h
    rw [set, if_neg (by simp [h.1]), ih h.2]
    rfl

/-- A key is there when it can be read. -/
theorem has_eq_isSome (l : List (K × V)) (k : K) :
    has same l k = (get? same l k).isSome := by
  rw [get?, Option.isSome_map, List.isSome_find?]
  rfl

/-- A key that was set is read back. -/
theorem get?_set {k : K} (hk : same k k = true) (l : List (K × V)) (v : V) :
    get? same (set same l k v) k = some v := by
  induction l with
  | nil => simp [get?, set, hk]
  | cons p l ih =>
    rw [set]
    split
    · rename_i hp
      simp [get?, hp]
    · rename_i hp
      have : (p :: set same l k v).find? (fun q => same q.1 k)
          = (set same l k v).find? fun q => same q.1 k := List.find?_cons_of_neg hp
      rw [get?, this]
      exact ih

/-- Setting a key behind a list that does not have it. -/
theorem set_append {l : List (K × V)} {k : K} (h : has same l k = false) (hk : same k k = true)
    (v v' : V) : set same (l ++ [(k, v)]) k v' = l ++ [(k, v')] := by
  induction l with
  | nil => simp [set, hk]
  | cons p l ih =>
    rw [has, List.any_cons, Bool.or_eq_false_iff] at h
    rw [List.cons_append, set, if_neg (by simp [h.1]), ih h.2, List.cons_append]

/-- Deleting a key that is not there. -/
theorem delete_of_not_has {l : List (K × V)} {k : K} (h : has same l k = false) :
    delete same l k = l := by
  refine List.filter_eq_self.mpr fun p hp => ?_
  rw [has, List.any_eq_false] at h
  simpa using h p hp

/-- A key that was deleted is not there. -/
@[simp] theorem get?_delete (l : List (K × V)) (k : K) : get? same (delete same l k) k = none := by
  rw [get?, delete, List.find?_filter]
  simp

/-- Every pair of the list after a `set` was there before or is the value
set, under a key that was there before or is the key set. -/
theorem mem_set {l : List (K × V)} {k : K} {v : V} {p : K × V}
    (h : p ∈ set same l k v) :
    p ∈ l ∨ p.2 = v ∧ (p.1 = k ∨ p.1 ∈ l.map Prod.fst) := by
  -- The pair that is set keeps the key as it stands in the list.
  induction l with
  | nil =>
    rw [set, List.mem_singleton] at h
    exact Or.inr (by simp [h])
  | cons q l ih =>
    rw [set] at h
    split at h
    · rcases List.mem_cons.mp h with rfl | h
      · exact Or.inr ⟨rfl, Or.inr (by simp)⟩
      · exact Or.inl (List.mem_cons_of_mem _ h)
    · rcases List.mem_cons.mp h with rfl | h
      · exact Or.inl List.mem_cons_self
      · refine (ih h).imp (List.mem_cons_of_mem _) (fun h => ⟨h.1, h.2.imp_right ?_⟩)
        exact List.mem_cons_of_mem _

end Assoc

/-! ## Tables with marked entries -/

namespace Tombstone

variable {E : Type}

/-- What a table stands for: its live entries, read as pairs. -/
def live (dead : E → Bool) (key : E → K) (val : E → V) (t : List E) : List (K × V) :=
  (t.filter fun e => !dead e).map fun e => (key e, val e)

variable (dead : E → Bool) (key : E → K) (val : E → V) (same : K → K → Bool)

/-- A live entry of that key. -/
def hit (dead : E → Bool) (key : E → K) (same : K → K → Bool) (k : K) (e : E) : Bool :=
  !dead e && same (key e) k

/-- The empty table stands for the empty list. -/
@[simp] theorem live_nil : live dead key val [] = [] := rfl

/-- An entry in front stands for its pair, or for nothing if it is marked. -/
theorem live_cons (e : E) (t : List E) :
    live dead key val (e :: t)
      = if dead e then live dead key val t
        else (key e, val e) :: live dead key val t := by
  cases h : dead e <;> simp [live, h]

/-- What is appended to a table is appended to the list. -/
@[simp] theorem live_append (t t' : List E) :
    live dead key val (t ++ t') = live dead key val t ++ live dead key val t' := by
  simp [live]

/-- The first hit of a table is the first pair of the key. -/
theorem find?_hit (t : List E) (k : K) :
    (t.find? (hit dead key same k)).map val
      = Assoc.get? same (live dead key val t) k := by
  induction t with
  | nil => rfl
  | cons e t ih =>
    rw [live_cons]
    cases hd : dead e with
    | true =>
      rw [List.find?_cons_of_neg (by simp [hit, hd]), ih]
      rfl
    | false =>
      by_cases hs : same (key e) k = true
      · rw [List.find?_cons_of_pos (by simp [hit, hd, hs])]
        simp [Assoc.get?, hs]
      · rw [List.find?_cons_of_neg (by simp [hit, hs]), ih]
        simp [Assoc.get?, hs]

/-- A table has a hit exactly when the list has the key. -/
theorem any_hit (t : List E) (k : K) :
    t.any (hit dead key same k) = Assoc.has same (live dead key val t) k := by
  rw [Assoc.has_eq_isSome, ← find?_hit, Option.isSome_map, List.isSome_find?]

/-- **Rewriting the first hit sets the key.** -/
theorem live_modify {f : E → E} {v : V} (hdead : ∀ e, dead (f e) = dead e)
    (hkey : ∀ e, key (f e) = key e) (hval : ∀ e, val (f e) = v) (t : List E) (k : K)
    {i : Nat} (hi : t.findIdx? (hit dead key same k) = some i) :
    live dead key val (t.modify i f) = Assoc.set same (live dead key val t) k v := by
  -- A marked entry has no pair, so the positions of table and list come apart.
  induction t generalizing i with
  | nil => cases hi
  | cons e t ih =>
    rw [List.findIdx?_cons] at hi
    split at hi
    · rename_i hh
      obtain rfl := Option.some.inj hi
      obtain ⟨hd, hs⟩ := Bool.and_eq_true_iff.mp hh
      have hd' : dead e = false := by simpa using hd
      rw [List.modify_zero_cons, live_cons, live_cons, hdead, hd', hkey, hval]
      simp [Assoc.set, hs]
    · rename_i hh
      obtain ⟨j, hj, rfl⟩ := Option.map_eq_some_iff.mp hi
      rw [List.modify_succ_cons, live_cons, live_cons, ih hj]
      cases hd : dead e with
      | true => rfl
      | false =>
        have hs : same (key e) k = false := by simpa [hit, hd] using hh
        simp [Assoc.set, hs]

/-- **Marking every hit deletes the key.** -/
theorem live_mark {f : E → E} (hf : ∀ e, dead (f e) = true) (t : List E) (k : K) :
    live dead key val (t.map fun e => if hit dead key same k e then f e else e)
      = Assoc.delete same (live dead key val t) k := by
  induction t with
  | nil => rfl
  | cons e t ih =>
    rw [List.map_cons, live_cons, live_cons, ih]
    cases hd : dead e with
    | true => simp [hit, hd]
    | false =>
      by_cases hs : same (key e) k = true
      · simp [hit, hd, hs, hf, Assoc.delete]
      · simp [hit, hd, hs, Assoc.delete]

end Tombstone

end Hmr
