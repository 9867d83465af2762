import Mathlib.Data.List.Nodup
import Mathlib.Tactic.SplitIfs

/-!
# Tables with a primary key

A table is a list of rows whose keys are distinct. The invariant is a field, so no statement can
build a table with two rows of one key, and a key determines its row.

* `Table`, `Table.find`: the rows and the lookup by key;
* `Table.Update`: an `UPDATE … SET … WHERE …` that leaves the key alone, run by `Table.update`;
  `Table.Update.map_row`: what it does not assign;
* `Table.insert`, `Table.insertAll`, `Table.upsert`, `Table.delete`: the other statements;
* **`Table.find_update`**, `Table.find_upsert`, `Table.find_delete`, `Table.mem_upsert`,
  `Table.mem_delete`: what each does to the rows;
* `Table.count`: the number of rows with a property, and what the statements do to it.
-/

universe u v w

/-- The rows of a table with primary key `key`. -/
structure Table {ρ : Type u} {κ : Type v} (key : ρ → κ) where
  rows : List ρ
  nodup : (rows.map key).Nodup

namespace Table

variable {ρ : Type u} {κ : Type v} {key : ρ → κ}

/-- The table without rows. -/
def empty : Table key := ⟨[], List.nodup_nil⟩

/-- Two rows of one key are one row. -/
theorem eq_of_key (t : Table key) {r r' : ρ} (h : r ∈ t.rows) (h' : r' ∈ t.rows)
    (hk : key r = key r') : r = r' :=
  List.inj_on_of_nodup_map t.nodup h h' hk

section Find

variable [DecidableEq κ] (t : Table key) {k : κ} {r : ρ}

/-- The row with key `k`. -/
def find (k : κ) : Option ρ := t.rows.find? fun r => key r = k

theorem find_eq_none : t.find k = none ↔ ∀ r ∈ t.rows, key r ≠ k := by
  simp [find]

variable {t} in
theorem mem_of_find (h : t.find k = some r) : r ∈ t.rows := List.mem_of_find?_eq_some h

variable {t} in
theorem key_of_find (h : t.find k = some r) : key r = k := by simpa using List.find?_some h

theorem find_of_mem (h : r ∈ t.rows) : t.find (key r) = some r := by
  obtain ⟨r', hr'⟩ : ∃ r', t.find (key r) = some r' := by
    rw [← Option.ne_none_iff_exists']
    exact fun hnone => t.find_eq_none.mp hnone r h rfl
  rw [hr', t.eq_of_key (mem_of_find hr') h (key_of_find hr')]

theorem find_eq_some : t.find k = some r ↔ r ∈ t.rows ∧ key r = k := by
  refine ⟨fun h => ⟨mem_of_find h, key_of_find h⟩, ?_⟩
  rintro ⟨hr, rfl⟩
  exact t.find_of_mem hr

end Find

/-! ## Updates -/

/-- `UPDATE … SET set WHERE hits`, where `set` does not assign the key. -/
structure Update (key : ρ → κ) where
  hits : ρ → Bool
  set : ρ → ρ
  key_set : ∀ r, key (set r) = key r

namespace Update

/-- What the update makes of one row. -/
def row (u : Update key) (r : ρ) : ρ := if u.hits r then u.set r else r

/-- The update that changes nothing. -/
def none : Update key := ⟨fun _ => false, id, fun _ => rfl⟩

@[simp] theorem row_none (r : ρ) : (none : Update key).row r = r := rfl

theorem row_of_hits {u : Update key} {r : ρ} (h : u.hits r = true) : u.row r = u.set r :=
  if_pos h

theorem row_of_not_hits {u : Update key} {r : ρ} (h : u.hits r = false) : u.row r = r := by
  rw [row, h, if_neg Bool.false_ne_true]

/-- What an update does not assign stays as it is. -/
theorem map_row {β : Type w} (u : Update key) {f : ρ → β}
    (h : ∀ r, u.hits r = true → f (u.set r) = f r) (r : ρ) : f (u.row r) = f r := by
  unfold row
  split_ifs with hhits
  · exact h r hhits
  · rfl

theorem key_row (u : Update key) (r : ρ) : key (u.row r) = key r :=
  u.map_row (fun r _ => u.key_set r) r

end Update

section Update

variable (t : Table key) (u : Update key)

/-- Run an update. -/
def update : Table key where
  rows := t.rows.map u.row
  nodup := by
    rw [List.map_map, show key ∘ u.row = key from funext u.key_row]
    exact t.nodup

/-- `rows_affected() > 0`. -/
def affected : Bool := t.rows.any u.hits

theorem mem_update {r : ρ} : r ∈ (t.update u).rows ↔ ∃ r₀ ∈ t.rows, u.row r₀ = r := List.mem_map

@[simp] theorem update_none : t.update Update.none = t := by
  obtain ⟨rows, hn⟩ := t
  have : rows.map (Update.none : Update key).row = rows := List.map_id' rows
  simp only [update, this]

theorem affected_iff : t.affected u = true ↔ ∃ r ∈ t.rows, u.hits r = true := List.any_eq_true

variable [DecidableEq κ]

/-- **A lookup after an update** is the row found before, updated. -/
theorem find_update (k : κ) : (t.update u).find k = (t.find k).map u.row := by
  simp only [find, update, List.find?_map]
  congr 2
  funext r
  simp only [Function.comp_apply, u.key_row]

end Update

/-! ## Inserts and deletes -/

section Insert

variable [DecidableEq κ] (t : Table key)

/-- `INSERT`, refused when the key is taken. -/
def insert (r : ρ) : Option (Table key) :=
  if h : key r ∈ t.rows.map key then none
  else some ⟨r :: t.rows, List.nodup_cons.mpr ⟨h, t.nodup⟩⟩

/-- A list of `INSERT`s in one transaction. -/
def insertAll : List ρ → Table key → Option (Table key)
  | [], t => some t
  | r :: rs, t => (t.insert r).bind (insertAll rs)

/-- `INSERT … ON CONFLICT (key) DO UPDATE`, the update being one of the rows with the new key. -/
def upsert (r : ρ) (u : Update key) : Table key := (t.insert r).getD (t.update u)

/-- `DELETE … WHERE p`. -/
def delete (p : ρ → Bool) : Table key where
  rows := t.rows.filter fun r => !p r
  nodup := (List.Sublist.map key List.filter_sublist).nodup t.nodup

variable {t} {t' : Table key} {r : ρ} {rs : List ρ} {k : κ} {p : ρ → Bool}

theorem insert_eq_some : t.insert r = some t' ↔
    t.find (key r) = none ∧ t'.rows = r :: t.rows := by
  unfold insert
  rw [find_eq_none]
  constructor
  · intro h
    split_ifs at h with hk
    cases h
    exact ⟨fun r' hr' he => hk (List.mem_map.mpr ⟨r', hr', he⟩), rfl⟩
  · rintro ⟨hf, hrows⟩
    have hk : key r ∉ t.rows.map key := by
      rintro hk
      obtain ⟨r', hr', he⟩ := List.mem_map.mp hk
      exact hf r' hr' he
    rw [dif_neg hk]
    cases t'
    simp only at hrows
    subst hrows
    rfl

theorem mem_upsert {u : Update key} (hu : ∀ r₀, u.hits r₀ = true → key r₀ = key r) {r' : ρ} :
    r' ∈ (t.upsert r u).rows ↔ (∃ r₀ ∈ t.rows, u.row r₀ = r') ∨ (t.find (key r) = none ∧ r' = r) := by
  unfold upsert
  cases hi : t.insert r with
  | none =>
    have hne : t.find (key r) ≠ none := by
      intro hf
      have hk : key r ∉ t.rows.map key := by simpa using t.find_eq_none.mp hf
      rw [insert, dif_neg hk] at hi
      cases hi
    rw [Option.getD_none, mem_update]
    simp only [hne, false_and, or_false]
  | some t' =>
    obtain ⟨hf, hrows⟩ := insert_eq_some.mp hi
    have hrow : ∀ r₀ ∈ t.rows, u.row r₀ = r₀ := by
      intro r₀ hr₀
      refine Update.row_of_not_hits (Bool.eq_false_iff.mpr fun hhits => ?_)
      exact t.find_eq_none.mp hf r₀ hr₀ (hu r₀ hhits)
    rw [Option.getD_some, hrows, List.mem_cons]
    constructor
    · rintro (rfl | h)
      · exact Or.inr ⟨hf, rfl⟩
      · exact Or.inl ⟨r', h, hrow r' h⟩
    · rintro (⟨r₀, hr₀, rfl⟩ | ⟨-, rfl⟩)
      · rw [hrow r₀ hr₀]
        exact Or.inr hr₀
      · exact Or.inl rfl

/-- The rows after a list of inserts, the last one first. -/
theorem rows_insertAll (h : insertAll rs t = some t') : t'.rows = rs.reverse ++ t.rows := by
  induction rs generalizing t with
  | nil =>
    cases h
    rfl
  | cons r rs ih =>
    obtain ⟨t₁, h₁, h₂⟩ := Option.bind_eq_some_iff.mp h
    rw [ih h₂, (insert_eq_some.mp h₁).2, List.reverse_cons, List.append_assoc]
    rfl

theorem fresh_of_insertAll (h : insertAll rs t = some t') : ∀ r ∈ rs, t.find (key r) = none := by
  induction rs generalizing t with
  | nil => simp
  | cons r₀ rs ih =>
    obtain ⟨t₁, h₁, h₂⟩ := Option.bind_eq_some_iff.mp h
    obtain ⟨hfresh, hrows⟩ := insert_eq_some.mp h₁
    intro r hr
    rcases List.mem_cons.mp hr with rfl | hr
    · exact hfresh
    · have := ih h₂ r hr
      rw [find_eq_none, hrows] at this
      rw [find_eq_none]
      exact fun r' hr' => this r' (List.mem_cons_of_mem _ hr')

omit [DecidableEq κ] in
theorem mem_delete : r ∈ (t.delete p).rows ↔ r ∈ t.rows ∧ p r = false := by
  simp [delete]

/-- **A lookup after an upsert** finds the new row, or the old one updated. -/
theorem find_upsert {u : Update key} (hu : ∀ r₀, u.hits r₀ = true → key r₀ = key r) (k : κ) :
    (t.upsert r u).find k =
      if key r = k then some ((t.find k).elim r u.row) else t.find k := by
  have hother : ∀ r₀, key r₀ ≠ key r → u.row r₀ = r₀ := fun r₀ hne =>
    Update.row_of_not_hits (Bool.eq_false_iff.mpr fun hhits => hne (hu r₀ hhits))
  split_ifs with hk
  · subst hk
    rw [find_eq_some, mem_upsert hu]
    cases hf : t.find (key r) with
    | none => exact ⟨Or.inr ⟨rfl, rfl⟩, rfl⟩
    | some r₀ =>
      exact ⟨Or.inl ⟨r₀, mem_of_find hf, rfl⟩, (u.key_row r₀).trans (key_of_find hf)⟩
  · refine Option.ext fun r' => ?_
    rw [find_eq_some, find_eq_some, mem_upsert hu]
    constructor
    · rintro ⟨⟨r₀, hr₀, rfl⟩ | ⟨-, rfl⟩, hkey⟩
      · rw [u.key_row] at hkey
        rw [hother r₀ fun he => hk (he.symm.trans hkey)]
        exact ⟨hr₀, hkey⟩
      · exact absurd hkey hk
    · rintro ⟨hr', rfl⟩
      exact ⟨Or.inl ⟨r', hr', hother r' fun he => hk he.symm⟩, rfl⟩

/-- A lookup after a delete of one key. -/
theorem find_delete (k k' : κ) : (t.delete fun r => decide (key r = k)).find k' =
    if k = k' then none else t.find k' := by
  refine Option.ext fun r => ?_
  rw [find_eq_some, mem_delete, decide_eq_false_iff_not]
  split_ifs with hk
  · simp only [iff_false]
    rintro ⟨⟨-, hne⟩, he⟩
    exact hne (he.trans hk.symm)
  · rw [find_eq_some]
    constructor
    · exact fun ⟨⟨hr, _⟩, he⟩ => ⟨hr, he⟩
    · exact fun ⟨hr, he⟩ => ⟨⟨hr, fun he' => hk (he'.symm.trans he)⟩, he⟩

end Insert

/-! ## Counting -/

section Count

variable (t : Table key) (p : ρ → Bool)

/-- `SELECT count(*) … WHERE p`. -/
def count : Nat := t.rows.countP p

variable {t p} {u : Update key}

/-- An update that gives no row the property does not raise the count. -/
theorem count_update_le (h : ∀ r ∈ t.rows, p (u.row r) = true → p r = true) :
    (t.update u).count p ≤ t.count p := by
  rw [count, count, update, List.countP_map]
  exact List.countP_mono_left h

/-- An update that gives it to one row, and leaves it with the others, raises the count by one. -/
theorem count_update_succ {r : ρ} (hr : r ∈ t.rows) (hp : p r = false) (hp' : p (u.row r) = true)
    (hother : ∀ r' ∈ t.rows, key r' ≠ key r → p (u.row r') = p r') :
    (t.update u).count p = t.count p + 1 := by
  obtain ⟨l, l', hrows⟩ := List.append_of_mem hr
  have hnodup := t.nodup
  rw [hrows, List.map_append, List.map_cons, List.nodup_append] at hnodup
  obtain ⟨-, hright, hdisj⟩ := hnodup
  have hleft : l.countP (p ∘ u.row) = l.countP p := by
    refine List.countP_congr fun r' hr' => ?_
    have hne : key r' ≠ key r := fun heq =>
      hdisj _ (List.mem_map_of_mem hr') _ List.mem_cons_self heq
    rw [Function.comp_apply, hother r' (by rw [hrows]; exact List.mem_append_left _ hr') hne]
  have hright : l'.countP (p ∘ u.row) = l'.countP p := by
    refine List.countP_congr fun r' hr' => ?_
    have hne : key r' ≠ key r := fun heq =>
      (List.nodup_cons.mp hright).1 (heq ▸ List.mem_map_of_mem hr')
    have hmem : r' ∈ t.rows := by
      rw [hrows]
      exact List.mem_append_right _ (List.mem_cons_of_mem _ hr')
    rw [Function.comp_apply, hother r' hmem hne]
  rw [count, count, update, List.countP_map, hrows, List.countP_append, List.countP_append,
    List.countP_cons_of_pos (by simpa using hp'), List.countP_cons_of_neg (by simp [hp]), hleft,
    hright]
  omega

end Count

end Table
