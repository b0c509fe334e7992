import Mathlib.Data.List.Nodup

/-!
# Headscale.Table

A database table whose rows carry an auto-increment primary key, the way gorm
maps `types.Node` and `types.Route` onto the `nodes` and `routes` tables.

The table is a map from primary key to row, so no two rows ever share a key:
the uniqueness the schema enforces is structural here, and no later proof has
to re-establish it.  Keys in use are non-zero (gorm reads a zero key as "not
created yet") and lie below `next`, the key the next `Create` assigns.  `rows`
lists the rows in key order, the order in which the store scans them.

* `Table.save` is gorm's `Save`: a row with a zero key is created under the
  next key, any other row is written under its own key (`put`), replacing the
  row there or inserting it;
* `Table.update` rewrites one row in place without touching its key, the
  `Model(..).Where("id = ?", i).Update(..)` of the source; `Table.erase`
  deletes it;
* `mem_rows` characterises the listed rows, and each operation has a `get_*`
  equation, so proofs about the store never unfold a table;
* `find?_rows_eq_some` says what a scan of the rows returns: the passing row
  with the lowest key, the row gorm's `First` reads;
* `Table.map` rewrites every row in place, the effect of a loop that updates
  each listed row by a rule of the row alone; two tables are equal when their
  rows and next keys are (`Table.ext`).
-/

namespace Headscale

/-- Rows with an auto-increment primary key that `Create` assigns. -/
class Keyed (α : Type) where
  key : α → Nat
  withKey : α → Nat → α
  key_withKey : ∀ r i, key (withKey r i) = i

open Keyed

/-- A table keyed by primary key: `get i` is the row whose key is `i`. -/
structure Table (α : Type) [Keyed α] where
  get : Nat → Option α
  next : Nat
  key_get : ∀ {i r}, get i = some r → key r = i
  get_zero : get 0 = none
  get_of_le : ∀ {i}, next ≤ i → get i = none
  next_pos : 0 < next

namespace Table

variable {α : Type} [Keyed α] (t : Table α)

/-- The empty table; its first row will get key `1`. -/
def empty : Table α where
  get _ := none
  next := 1
  key_get h := nomatch h
  get_zero := rfl
  get_of_le _ := rfl
  next_pos := Nat.one_pos

/-- The rows, in key order. -/
def rows : List α := (List.range t.next).filterMap t.get

/-- Write `r` under its own (non-zero) key, inserting or replacing. -/
def put (r : α) (h : key r ≠ 0) : Table α where
  get i := if i = key r then some r else t.get i
  next := max t.next (key r + 1)
  key_get {i r'} hi := by
    dsimp only at hi
    split at hi
    · cases hi; subst i; rfl
    · exact t.key_get hi
  get_zero := by simp [Ne.symm h, t.get_zero]
  get_of_le {i} hi := by
    have hne : i ≠ key r := by omega
    simp [hne, t.get_of_le (show t.next ≤ i by omega)]
  next_pos := by have := t.next_pos; omega

/-- `Create`: the row is stored under the next auto-increment key. -/
def create (r : α) : Table α :=
  t.put (withKey r t.next) (by rw [key_withKey]; exact Nat.pos_iff_ne_zero.1 t.next_pos)

/-- gorm's `Save`: create a row whose key is zero, otherwise upsert it under its
key.  Returns the row as stored, its key filled in. -/
def save (r : α) : α × Table α :=
  if h : key r = 0 then (withKey r t.next, t.create r) else (r, t.put r h)

/-- Rewrite row `i` in place by `f`, which keeps the key. -/
def update (i : Nat) (f : α → α) (hf : ∀ r, key (f r) = key r) : Table α where
  get j := if j = i then (t.get j).map f else t.get j
  next := t.next
  key_get {j r} hj := by
    dsimp only at hj
    split at hj
    · obtain ⟨r₀, h₀, rfl⟩ := Option.map_eq_some'.1 hj
      rw [hf, t.key_get h₀]
    · exact t.key_get hj
  get_zero := by dsimp only; split <;> simp [t.get_zero]
  get_of_le {j} hj := by dsimp only; split <;> simp [t.get_of_le hj]
  next_pos := t.next_pos

/-- Delete row `i`. -/
def erase (i : Nat) : Table α where
  get j := if j = i then none else t.get j
  next := t.next
  key_get {j r} hj := by
    dsimp only at hj
    split at hj
    · cases hj
    · exact t.key_get hj
  get_zero := by dsimp only; split <;> simp [t.get_zero]
  get_of_le {j} hj := by dsimp only; split <;> simp [t.get_of_le hj]
  next_pos := t.next_pos

/-- Every row rewritten by `f`, which keeps the key. -/
def map (f : α → α) (hf : ∀ r, key (f r) = key r) : Table α where
  get i := (t.get i).map f
  next := t.next
  key_get {i r} h := by
    obtain ⟨r₀, h₀, rfl⟩ := Option.map_eq_some'.1 h
    rw [hf, t.key_get h₀]
  get_zero := by simp [t.get_zero]
  get_of_le h := by simp [t.get_of_le h]
  next_pos := t.next_pos

/-! ## Equations -/

@[simp] theorem get_empty (i : Nat) : (empty : Table α).get i = none := rfl

@[simp] theorem get_put (r : α) (h : key r ≠ 0) (i : Nat) :
    (t.put r h).get i = if i = key r then some r else t.get i := rfl

@[simp] theorem next_put (r : α) (h : key r ≠ 0) : (t.put r h).next = max t.next (key r + 1) :=
  rfl

@[simp] theorem get_update (i : Nat) (f : α → α) (hf : ∀ r, key (f r) = key r) (j : Nat) :
    (t.update i f hf).get j = if j = i then (t.get j).map f else t.get j := rfl

@[simp] theorem next_update (i : Nat) (f : α → α) (hf : ∀ r, key (f r) = key r) :
    (t.update i f hf).next = t.next := rfl

@[simp] theorem get_erase (i j : Nat) : (t.erase i).get j = if j = i then none else t.get j :=
  rfl

@[simp] theorem next_erase (i : Nat) : (t.erase i).next = t.next := rfl

@[simp] theorem get_map (f : α → α) (hf : ∀ r, key (f r) = key r) (i : Nat) :
    (t.map f hf).get i = (t.get i).map f := rfl

@[simp] theorem next_map (f : α → α) (hf : ∀ r, key (f r) = key r) : (t.map f hf).next = t.next :=
  rfl

/-- Tables are equal when their rows and their next keys are. -/
theorem ext {t' : Table α} (hg : ∀ i, t.get i = t'.get i) (hn : t.next = t'.next) : t = t' := by
  cases t; cases t'
  cases funext hg; cases hn; rfl

/-- What `save` stores: a created row under the next key, any other row under
its own key. -/
theorem save_eq (r : α) :
    t.save r = if h : key r = 0 then (withKey r t.next, t.create r) else (r, t.put r h) := rfl

/-- The row `save` stores: the row itself, or the row under the next key when
its key was zero. -/
theorem save_fst (r : α) : (t.save r).1 = if key r = 0 then withKey r t.next else r := by
  unfold save; split <;> simp_all

theorem get_save (r : α) (j : Nat) :
    (t.save r).2.get j = if j = key (t.save r).1 then some (t.save r).1 else t.get j := by
  unfold save; split <;> rfl

theorem next_le_save (r : α) : t.next ≤ (t.save r).2.next := by
  unfold save; split <;> simp [create]

theorem key_save_lt (r : α) : key (t.save r).1 < (t.save r).2.next := by
  unfold save; split <;> simp [create, key_withKey]

/-- A created row takes the next key. -/
theorem key_save_of_key_eq_zero {r : α} (h : key r = 0) : key (t.save r).1 = t.next := by
  simp [save_fst, h, key_withKey]

theorem key_save_of_key_ne_zero {r : α} (h : key r ≠ 0) : (t.save r).1 = r := by
  simp [save_fst, h]

/-! ## Keys and listed rows -/

theorem ne_zero_of_get {i : Nat} {r : α} (h : t.get i = some r) : i ≠ 0 := by
  rintro rfl; simp [t.get_zero] at h

theorem lt_next_of_get {i : Nat} {r : α} (h : t.get i = some r) : i < t.next :=
  Nat.lt_of_not_le fun hle => by simp [t.get_of_le hle] at h

/-- A row is listed exactly when it is stored under its key. -/
theorem mem_rows {r : α} : r ∈ t.rows ↔ t.get (key r) = some r := by
  simp only [rows, List.mem_filterMap, List.mem_range]
  constructor
  · rintro ⟨i, -, hi⟩
    rwa [t.key_get hi]
  · intro h
    exact ⟨key r, t.lt_next_of_get h, h⟩

theorem mem_rows_of_get {i : Nat} {r : α} (h : t.get i = some r) : r ∈ t.rows :=
  t.mem_rows.2 (by rw [t.key_get h]; exact h)

theorem key_ne_zero_of_mem {r : α} (h : r ∈ t.rows) : key r ≠ 0 :=
  t.ne_zero_of_get (t.mem_rows.1 h)

/-- Listed rows with the same key are the same row. -/
theorem eq_of_mem_rows {r r' : α} (h : r ∈ t.rows) (h' : r' ∈ t.rows) (hk : key r = key r') :
    r = r' := by
  have := t.mem_rows.1 h'
  rw [← hk, t.mem_rows.1 h] at this
  exact Option.some.inj this

/-- The keys of the listed rows are pairwise distinct. -/
theorem nodup_map_key_rows : (t.rows.map key).Nodup := by
  refine (List.nodup_range t.next).filterMap (fun i j k hi hj => ?_) |>.map_on ?_
  · rw [← t.key_get hi, ← t.key_get hj]
  · intro r hr r' hr' hk
    exact t.eq_of_mem_rows hr hr' hk

/-- The rows are listed in strictly increasing key order. -/
theorem rows_key_lt : (t.rows.map key).Pairwise (· < ·) :=
  List.pairwise_map.2 <| (List.pairwise_lt_range t.next).filterMap t.get
    fun _ _ hij _ hr _ hr' => by rw [t.key_get hr, t.key_get hr']; exact hij

/-- A scan of the rows in key order, as gorm's `First` makes it, stops at the
passing row with the lowest key. -/
theorem find?_rows_eq_some {p : α → Bool} {r : α} :
    t.rows.find? p = some r ↔ r ∈ t.rows ∧ p r ∧ ∀ x ∈ t.rows, key x < key r → p x = false := by
  -- what a scan that stops at a row says of it and of the rows below it
  have first : ∀ {r}, t.rows.find? p = some r →
      r ∈ t.rows ∧ p r ∧ ∀ x ∈ t.rows, key x < key r → p x = false := by
    intro r h
    obtain ⟨hp, as, bs, hl, has⟩ := List.find?_eq_some.1 h
    have hsorted := t.rows_key_lt
    rw [hl, List.map_append, List.pairwise_append, List.map_cons, List.pairwise_cons] at hsorted
    refine ⟨List.mem_of_find?_eq_some h, hp, fun x hx hlt => ?_⟩
    rw [hl, List.mem_append, List.mem_cons] at hx
    rcases hx with hx | rfl | hx
    · simpa using has x hx
    · exact absurd hlt (lt_irrefl _)
    · exact absurd hlt (not_lt.2 (hsorted.2.1.1 _ (List.mem_map_of_mem _ hx)).le)
  refine ⟨first, fun ⟨hr, hp, hlow⟩ => ?_⟩
  -- the scan stops somewhere, and neither row can lie below the other
  rcases hf : t.rows.find? p with _ | r'
  · exact absurd (List.find?_eq_none.1 hf r hr) (by simp [hp])
  obtain ⟨hm', hp', hlow'⟩ := first hf
  rcases lt_trichotomy (key r') (key r) with hlt | heq | hlt
  · rw [hlow r' hm' hlt] at hp'; cases hp'
  · rw [t.eq_of_mem_rows hm' hr heq]
  · rw [hlow' r hr hlt] at hp; cases hp

/-- Two tables with the same `next` whose rows agree under `F` key by key list
the same rows under `F`. -/
theorem rows_map_eq {β : Type} {t' : Table α} (F : α → β) (hn : t'.next = t.next)
    (h : ∀ j, (t'.get j).map F = (t.get j).map F) : t'.rows.map F = t.rows.map F := by
  simp only [rows, List.map_filterMap, hn, h]

/-- The rows after a `save`: the saved row, and the rows under other keys. -/
theorem mem_rows_save {r x : α} :
    x ∈ (t.save r).2.rows ↔ x = (t.save r).1 ∨ (x ∈ t.rows ∧ key x ≠ key (t.save r).1) := by
  rw [mem_rows, mem_rows, get_save]
  by_cases hk : key x = key (t.save r).1
  · simp only [hk, if_true, Option.some.injEq, ne_eq, not_true_eq_false, and_false, or_false]
    exact eq_comm
  · simp only [hk, if_false, ne_eq, not_false_eq_true, and_true, iff_or_self]
    rintro rfl; exact absurd rfl hk

theorem mem_rows_erase {i : Nat} {x : α} : x ∈ (t.erase i).rows ↔ x ∈ t.rows ∧ key x ≠ i := by
  rw [mem_rows, mem_rows, get_erase]
  split <;> simp_all

/-- The rows after an `update`: the rewritten row under the key, and the rows
under other keys. -/
theorem mem_rows_update {i : Nat} {f : α → α} {hf : ∀ r, key (f r) = key r} {x : α} :
    x ∈ (t.update i f hf).rows ↔ (∃ y ∈ t.rows, key y = i ∧ x = f y) ∨ (x ∈ t.rows ∧ key x ≠ i) := by
  rw [mem_rows, get_update]
  by_cases hk : key x = i
  · simp only [hk, if_true, Option.map_eq_some', ne_eq, not_true_eq_false, and_false, or_false]
    constructor
    · rintro ⟨y, hy, rfl⟩
      exact ⟨y, t.mem_rows_of_get hy, t.key_get hy, rfl⟩
    · rintro ⟨y, hy, hky, rfl⟩
      exact ⟨y, hky ▸ t.mem_rows.1 hy, rfl⟩
  · rw [if_neg hk, ← t.mem_rows]
    refine ⟨.inr ∘ (⟨·, hk⟩), ?_⟩
    rintro (⟨y, -, hky, rfl⟩ | ⟨hx, -⟩)
    · exact absurd ((hf y).trans hky) hk
    · exact hx

/-- Saving a row the table holds under its key changes nothing. -/
theorem save_stored {r : α} (h : t.get (key r) = some r) : (t.save r).2 = t := by
  have hne : key r ≠ 0 := t.ne_zero_of_get h
  have hlt : key r < t.next := t.lt_next_of_get h
  rw [save_eq, dif_neg hne]
  refine ext _ (fun i => ?_) (by simp only [next_put]; omega)
  rw [get_put]
  split
  · subst i; exact h.symm
  · rfl

/-- Rewriting every row rewrites the listing row by row. -/
theorem rows_map (f : α → α) (hf : ∀ r, key (f r) = key r) : (t.map f hf).rows = t.rows.map f := by
  simp only [rows, List.map_filterMap]; rfl

/-- Rewriting every row commutes with deleting one. -/
theorem erase_map (f : α → α) (hf : ∀ r, key (f r) = key r) (i : Nat) :
    (t.map f hf).erase i = (t.erase i).map f hf :=
  ext _ (fun j => by simp only [get_erase, get_map]; split <;> rfl) rfl

end Table

end Headscale
