import HeyoCi.Lib.Ensure
import HeyoCi.Lib.Machine
import Mathlib.Data.List.Infix

/-!
# Migrations are applied on every start

All files of the directory are executed in their order whenever an instance starts, each of them as
one transaction, behind a lock that all instances take. There is no record of what was applied.

* `Column`, `TableDef`, `IndexDef`, `Schema`: what the database is made of;
* `Statement`, `Statement.exec`: the statements of the files, with what they fail on;
* `SchemaChange`, `SchemaChange.Holds`: the statements by what they ensure; `lawful_changes`;
* `migrations`: the files; `schemaAt`: the database behind the first ones;
* `Installation`, `migrating`: instances of any versions that start, fail and write rows;
* **`migrations_settle`**: the database is always one of a version, and no file ever fails on it.
-/

namespace HeyoCi

/-! ## Databases -/

inductive SqlType where
  | text
  | integer
  | bigint
  | boolean
  | jsonb
  | timestamptz
  deriving Repr, DecidableEq

inductive OnDelete where
  | cascade
  | setNull
  deriving Repr, DecidableEq

structure Column where
  name : String
  type : SqlType
  notNull : Bool
  default : Option String
  references : Option (String × OnDelete)
  deriving Repr, DecidableEq

/-- `CHECK (column IN (values))`, under its name. -/
structure CheckDef where
  name : String
  column : String
  values : List String
  deriving Repr, DecidableEq

structure TableDef where
  name : String
  columns : List Column
  /-- The primary key and the unique ones. -/
  keys : List (List String)
  checks : List CheckDef
  deriving Repr, DecidableEq

structure IndexDef where
  name : String
  table : String
  columns : List String
  /-- The columns that are in descending order. -/
  descending : List String
  only : Option String
  deriving Repr, DecidableEq

structure Schema where
  tables : List TableDef
  indexes : List IndexDef
  deriving Repr, DecidableEq

/-- Why a statement fails, beside locks. -/
inductive SqlError where
  | undefinedTable (name : String)
  | undefinedColumn (name : String)
  | duplicateObject (name : String)
  | checkViolation (name : String)
  | notNullViolation (name : String)
  deriving Repr, DecidableEq

/-- A value of a column in one of the rows: the table, the column and the value. -/
structure RowValue where
  table : String
  column : String
  value : String
  deriving Repr, DecidableEq

/-- The statements of the files. All but those about checks say `IF NOT EXISTS`. -/
inductive Statement where
  | createTable (t : TableDef)
  | addColumn (table : String) (c : Column)
  | createIndex (i : IndexDef)
  | dropConstraint (table name : String)
  | addCheck (table : String) (check : CheckDef)
  deriving Repr, DecidableEq

namespace Schema

def find (s : Schema) (name : String) : Option TableDef := s.tables.find? fun t => t.name = name

/-- A table is replaced by one of its name. -/
def update (s : Schema) (name : String) (f : TableDef → TableDef) : Schema :=
  { s with tables := s.tables.map fun t => if t.name = name then f t else t }

end Schema

def TableDef.hasColumn (t : TableDef) (name : String) : Bool := t.columns.any fun c => c.name = name

def TableDef.dropCheck (name : String) (t : TableDef) : TableDef :=
  { t with checks := t.checks.filter (·.name ≠ name) }

/-- The first table that a column refers to and that is not there. -/
def missingReference (s : Schema) (own : String) (cols : List Column) : Option String :=
  (cols.filterMap fun c => c.references.map Prod.fst).find? fun name =>
    name ≠ own && (s.find name).isNone

/-- The first of these columns that a table does not have. -/
def missingColumn (t : TableDef) (names : List String) : Option String :=
  names.find? fun name => !t.hasColumn name

/-- A value of a row that a check does not allow. -/
def violates (cells : List RowValue) (table : String) (check : CheckDef) : Bool :=
  cells.any fun x => x.table = table && x.column = check.column && !check.values.contains x.value

/-- Execute a statement on a database with rows of these cells. -/
def Statement.exec (cells : List RowValue) : Statement → Schema → Except SqlError Schema
  | .createTable t, s =>
    if (s.find t.name).isSome then .ok s
    else match missingReference s t.name t.columns with
      | some name => .error (.undefinedTable name)
      | none => match missingColumn t (t.keys.flatten ++ t.checks.map (·.column)) with
        | some name => .error (.undefinedColumn name)
        | none => .ok { s with tables := s.tables ++ [t] }
  | .addColumn table c, s => match s.find table with
    | none => .error (.undefinedTable table)
    | some t =>
      if t.hasColumn c.name then .ok s
      else match missingReference s table [c] with
        | some name => .error (.undefinedTable name)
        | none =>
          if c.notNull && c.default.isNone && cells.any fun x => x.table = table then
            .error (.notNullViolation c.name)
          else .ok (s.update table fun t => { t with columns := t.columns ++ [c] })
  | .createIndex i, s =>
    if s.indexes.any fun j => j.name = i.name then .ok s
    else match s.find i.table with
      | none => .error (.undefinedTable i.table)
      | some t => match missingColumn t i.columns with
        | some name => .error (.undefinedColumn name)
        | none => .ok { s with indexes := s.indexes ++ [i] }
  | .dropConstraint table name, s => match s.find table with
    | none => .error (.undefinedTable table)
    | some _ => .ok (s.update table (.dropCheck name))
  | .addCheck table check, s => match s.find table with
    | none => .error (.undefinedTable table)
    | some t =>
      if t.checks.any fun c => c.name = check.name then .error (.duplicateObject check.name)
      else if !t.hasColumn check.column then .error (.undefinedColumn check.column)
      else if violates cells table check then .error (.checkViolation check.name)
      else .ok (s.update table fun t => { t with checks := t.checks ++ [check] })

/-! ## What statements ensure -/

/-- The statements of the files, by what they ensure: a check is replaced by two of them. -/
inductive SchemaChange where
  | createTable (t : TableDef)
  | addColumn (table : String) (c : Column)
  | createIndex (i : IndexDef)
  | replaceCheck (table : String) (check : CheckDef)
  deriving Repr, DecidableEq

namespace SchemaChange

def statements : SchemaChange → List Statement
  | .createTable t => [.createTable t]
  | .addColumn table c => [.addColumn table c]
  | .createIndex i => [.createIndex i]
  | .replaceCheck table check => [.dropConstraint table check.name, .addCheck table check]

def exec (cells : List RowValue) (c : SchemaChange) (s : Schema) : Except SqlError Schema :=
  Ensure.applyAll (Statement.exec cells) c.statements s

/-- What is there behind a change. -/
def Holds : SchemaChange → Schema → Prop
  | .createTable t, s => (s.find t.name).isSome
  | .addColumn table c, s => ∃ t, s.find table = some t ∧ t.hasColumn c.name = true
  | .createIndex i, s => ∃ j ∈ s.indexes, j.name = i.name
  | .replaceCheck table check, s =>
    (∃ t, s.find table = some t ∧ t.hasColumn check.column = true) ∧
      ∀ t ∈ s.tables, t.name = table → t.checks = t.checks.filter (·.name ≠ check.name) ++ [check]

/-- No row has a value that the check of a change does not allow, or lacks one that a column needs. -/
def Admits (cells : List RowValue) : SchemaChange → Prop
  | .addColumn table c => c.notNull = true → c.default.isNone = true → ∀ x ∈ cells, x.table ≠ table
  | .replaceCheck table check => ∀ x ∈ cells, x.table = table → x.column = check.column →
      x.value ∈ check.values
  | _ => True

end SchemaChange

/-! ## The laws of changes -/

section Laws

variable {s s' : Schema} {cells : List RowValue}

theorem find_update {name : String} {f : TableDef → TableDef} (hf : ∀ t, (f t).name = t.name)
    (other : String) : (s.update name f).find other =
      (s.find other).map fun t => if t.name = name then f t else t := by
  have hname : ∀ t, (if t.name = name then f t else t).name = t.name := by
    intro t
    split_ifs
    · exact hf t
    · rfl
  rw [Schema.find, Schema.update, List.find?_map]
  congr 2
  funext t
  exact congrArg (fun n => decide (n = other)) (hname t)

theorem find_name {name : String} {t : TableDef} (h : s.find name = some t) : t.name = name := by
  simpa using List.find?_some h

theorem find_update_self {name : String} {f : TableDef → TableDef} (hf : ∀ t, (f t).name = t.name)
    {t : TableDef} (h : s.find name = some t) : (s.update name f).find name = some (f t) := by
  rw [find_update hf, h, Option.map_some, if_pos (find_name h)]

theorem find_append {name : String} {t : TableDef} (h : s.find name = some t) (u : TableDef) :
    Schema.find { s with tables := s.tables ++ [u] } name = some t := by
  change (s.tables ++ [u]).find? _ = some t
  change s.tables.find? _ = some t at h
  rw [List.find?_append, h]
  rfl

/-- Nothing changes where every table is replaced by itself. -/
theorem update_self {name : String} {f : TableDef → TableDef}
    (hf : ∀ t ∈ s.tables, t.name = name → f t = t) : s.update name f = s := by
  have hsame : (s.tables.map fun t => if t.name = name then f t else t) = s.tables := by
    conv_rhs => rw [← List.map_id s.tables]
    refine List.map_congr_left fun t ht => ?_
    split_ifs with hname
    · exact hf t ht hname
    · rfl
  rw [Schema.update, hsame]

/-- What tables may become: they stay, with all their columns. -/
structure Extends (s s' : Schema) : Prop where
  tables : ∀ name t, s.find name = some t → ∃ t', s'.find name = some t' ∧
    ∀ c, t.hasColumn c = true → t'.hasColumn c = true
  indexes : s.indexes ⊆ s'.indexes

theorem hasColumn_append {t : TableDef} {c : Column} {name : String} (h : t.hasColumn name = true) :
    TableDef.hasColumn { t with columns := t.columns ++ [c] } name = true := by
  rw [TableDef.hasColumn, List.any_append]
  exact Bool.or_eq_true_iff.mpr (Or.inl h)

theorem Extends.refl (s : Schema) : Extends s s :=
  ⟨fun _ t h => ⟨t, h, fun _ hc => hc⟩, List.Subset.refl _⟩

theorem Extends.trans {s'' : Schema} (h : Extends s s') (h' : Extends s' s'') : Extends s s'' := by
  refine ⟨fun name t ht => ?_, List.Subset.trans h.indexes h'.indexes⟩
  obtain ⟨t', ht', hcols⟩ := h.tables name t ht
  obtain ⟨t'', ht'', hcols'⟩ := h'.tables name t' ht'
  exact ⟨t'', ht'', fun c hc => hcols' c (hcols c hc)⟩

theorem extends_update {name : String} {f : TableDef → TableDef} (hf : ∀ t, (f t).name = t.name)
    (hcols : ∀ t c, t.hasColumn c = true → (f t).hasColumn c = true) :
    Extends s (s.update name f) := by
  refine ⟨fun other t ht => ⟨if t.name = name then f t else t, ?_, fun c hc => ?_⟩,
    List.Subset.refl _⟩
  · rw [find_update hf, ht, Option.map_some]
  · split_ifs
    · exact hcols t c hc
    · exact hc

/-- **A statement takes no table, column or index away.** -/
theorem Statement.exec_extends {st : Statement} (h : st.exec cells s = .ok s') : Extends s s' := by
  cases st with
  | createTable t =>
    rw [Statement.exec] at h
    split_ifs at h
    · cases h
      exact Extends.refl s
    · split at h
      · cases h
      · split at h
        · cases h
        · cases h
          exact ⟨fun name u hu => ⟨u, find_append hu t, fun _ hc => hc⟩, List.Subset.refl _⟩
  | addColumn table c =>
    rw [Statement.exec] at h
    split at h
    · cases h
    · split at h
      · cases h
        exact Extends.refl s
      · split at h
        · cases h
        · split at h
          · cases h
          · cases h
            exact extends_update (fun _ => rfl) fun _ _ hc => hasColumn_append hc
  | createIndex i =>
    rw [Statement.exec] at h
    split_ifs at h
    · cases h
      exact Extends.refl s
    · split at h
      · cases h
      · split at h
        · cases h
        · cases h
          exact ⟨fun _ u hu => ⟨u, hu, fun _ hc => hc⟩, List.subset_append_left _ _⟩
  | dropConstraint table name =>
    rw [Statement.exec] at h
    split at h
    · cases h
    · cases h
      exact extends_update (fun _ => rfl) fun _ _ hc => hc
  | addCheck table check =>
    rw [Statement.exec] at h
    split at h
    · cases h
    · split_ifs at h
      cases h
      exact extends_update (fun _ => rfl) fun _ _ hc => hc

theorem exec_extends {c : SchemaChange} (h : c.exec cells s = .ok s') : Extends s s' := by
  have hall : ∀ (l : List Statement) (s : Schema),
      Ensure.applyAll (Statement.exec cells) l s = .ok s' → Extends s s' := by
    intro l
    induction l with
    | nil =>
      intro s hs
      cases hs
      exact Extends.refl _
    | cons st l ih =>
      intro s hs
      obtain ⟨t, hst, hrest⟩ := Ensure.applyAll_cons_ok.mp hs
      exact (Statement.exec_extends hst).trans (ih t hrest)
  exact hall c.statements s h

/-- A table with a check in place of what is there under its name. -/
def TableDef.withCheck (check : CheckDef) (t : TableDef) : TableDef :=
  { t with checks := t.checks.filter (·.name ≠ check.name) ++ [check] }

theorem update_update {name : String} {f g : TableDef → TableDef} (hf : ∀ t, (f t).name = t.name) :
    (s.update name f).update name g = s.update name fun t => g (f t) := by
  rw [Schema.update, Schema.update, Schema.update, List.map_map]
  congr 1
  refine List.map_congr_left fun t _ => ?_
  by_cases hname : t.name = name
  · simp only [Function.comp_apply, if_pos hname, hf]
  · simp only [Function.comp_apply, if_neg hname]

/-- **Dropping a check and adding one** replaces it. -/
theorem exec_replaceCheck {table : String} {check : CheckDef} :
    (SchemaChange.replaceCheck table check).exec cells s = match s.find table with
      | none => .error (.undefinedTable table)
      | some t => if !t.hasColumn check.column then .error (.undefinedColumn check.column)
        else if violates cells table check then .error (.checkViolation check.name)
        else .ok (s.update table (TableDef.withCheck check)) := by
  rw [SchemaChange.exec, SchemaChange.statements, Ensure.applyAll, Statement.exec]
  cases ht : s.find table with
  | none => rfl
  | some t =>
    have hfind := find_update_self (f := TableDef.dropCheck check.name) (fun _ => rfl) ht
    have hgone : ((t.dropCheck check.name).checks.any fun c => c.name = check.name) = false := by
      rw [Bool.eq_false_iff, ne_eq, List.any_eq_true]
      rintro ⟨c, hc, hname⟩
      have hne := (List.mem_filter.mp hc).2
      exact absurd (of_decide_eq_true hname) (of_decide_eq_true hne)
    change ((Statement.addCheck table check).exec cells
      (s.update table (.dropCheck check.name))).bind _ = _
    simp only [Statement.exec, hfind, hgone, Bool.false_eq_true, if_false]
    change (if (!t.hasColumn check.column) = true then _ else _ : Except SqlError Schema).bind _ = _
    split_ifs with hcol hbad
    · rfl
    · rfl
    · exact congrArg Except.ok (update_update (f := TableDef.dropCheck check.name) fun _ => rfl)

namespace SchemaChange

theorem holds_extends {c : SchemaChange} (hc : ∀ table check, c ≠ .replaceCheck table check)
    (h : c.Holds s) (hs : Extends s s') : c.Holds s' := by
  cases c with
  | createTable t =>
    obtain ⟨u, hu⟩ := Option.isSome_iff_exists.mp h
    obtain ⟨u', hu', -⟩ := hs.tables _ u hu
    exact Option.isSome_iff_exists.mpr ⟨u', hu'⟩
  | addColumn table c =>
    obtain ⟨t, ht, hcol⟩ := h
    obtain ⟨t', ht', hcols⟩ := hs.tables _ t ht
    exact ⟨t', ht', hcols _ hcol⟩
  | createIndex i =>
    obtain ⟨j, hj, hname⟩ := h
    exact ⟨j, hs.indexes hj, hname⟩
  | replaceCheck table check => exact absurd rfl (hc table check)

theorem holds_withCheck {table : String} {check : CheckDef} {t : TableDef}
    (ht : s.find table = some t) (hcol : t.hasColumn check.column = true) :
    (SchemaChange.replaceCheck table check).Holds (s.update table (TableDef.withCheck check)) := by
  have hfind := find_update_self (f := TableDef.withCheck check) (fun _ => rfl) ht
  refine ⟨⟨_, hfind, hcol⟩, fun u hu hname => ?_⟩
  obtain ⟨v, -, rfl⟩ := List.mem_map.mp hu
  have hv : v.name = table := by
    by_contra hne
    rw [if_neg hne] at hname
    exact hne hname
  rw [if_pos hv]
  simp [TableDef.withCheck, List.filter_append, List.filter_filter]

/-- **What a change ensures is there behind it.** -/
theorem made {c : SchemaChange} (h : c.exec cells s = .ok s') : c.Holds s' := by
  cases c with
  | createTable t =>
    obtain ⟨u, hu, hrest⟩ := Ensure.applyAll_cons_ok.mp h
    cases hrest
    rw [Statement.exec] at hu
    split_ifs at hu with hsome
    · cases hu
      exact hsome
    · split at hu
      · cases hu
      · split at hu
        · cases hu
        · cases hu
          have hnone : s.tables.find? (fun u => u.name = t.name) = none := by
            simpa [Schema.find] using hsome
          change ((s.tables ++ [t]).find? fun u => u.name = t.name).isSome
          rw [List.find?_append, hnone]
          simp
  | addColumn table c =>
    obtain ⟨u, hu, hrest⟩ := Ensure.applyAll_cons_ok.mp h
    cases hrest
    rw [Statement.exec] at hu
    split at hu
    · cases hu
    · rename_i t ht
      split at hu
      · rename_i hcol
        cases hu
        exact ⟨t, ht, hcol⟩
      · split at hu
        · cases hu
        · split at hu
          · cases hu
          · cases hu
            refine ⟨_, find_update_self (f := fun t => { t with columns := t.columns ++ [c] })
              (fun _ => rfl) ht, ?_⟩
            simp [TableDef.hasColumn]
  | createIndex i =>
    obtain ⟨u, hu, hrest⟩ := Ensure.applyAll_cons_ok.mp h
    cases hrest
    rw [Statement.exec] at hu
    split_ifs at hu with hany
    · cases hu
      obtain ⟨j, hj, hname⟩ := List.any_eq_true.mp hany
      exact ⟨j, hj, of_decide_eq_true hname⟩
    · split at hu
      · cases hu
      · split at hu
        · cases hu
        · cases hu
          exact ⟨i, List.mem_append_right _ (List.mem_singleton.mpr rfl), rfl⟩
  | replaceCheck table check =>
    rw [exec_replaceCheck] at h
    split at h
    · cases h
    · rename_i t ht
      split_ifs at h with hcol hbad
      cases h
      exact holds_withCheck ht (by simpa using hcol)

/-- **Where it is there already, a change does nothing.** -/
theorem same {c : SchemaChange} (hc : c.Admits cells) (h : c.Holds s) : c.exec cells s = .ok s := by
  cases c with
  | createTable t =>
    refine Ensure.applyAll_cons_ok.mpr ⟨s, ?_, rfl⟩
    rw [Statement.exec]
    exact if_pos h
  | addColumn table c =>
    obtain ⟨t, ht, hcol⟩ := h
    refine Ensure.applyAll_cons_ok.mpr ⟨s, ?_, rfl⟩
    rw [Statement.exec, ht]
    exact if_pos hcol
  | createIndex i =>
    obtain ⟨j, hj, hname⟩ := h
    refine Ensure.applyAll_cons_ok.mpr ⟨s, ?_, rfl⟩
    rw [Statement.exec, if_pos (List.any_eq_true.mpr ⟨j, hj, decide_eq_true hname⟩)]
  | replaceCheck table check =>
    obtain ⟨⟨t, ht, hcol⟩, hchecks⟩ := h
    have hfine : violates cells table check = false := by
      rw [violates, Bool.eq_false_iff, ne_eq, List.any_eq_true]
      rintro ⟨x, hx, hbad⟩
      simp only [Bool.and_eq_true, decide_eq_true_eq, Bool.not_eq_true', List.contains_eq_mem,
        decide_eq_false_iff_not] at hbad
      exact hbad.2 (hc x hx hbad.1.1 hbad.1.2)
    rw [exec_replaceCheck, ht]
    simp only [hcol, hfine, Bool.not_true, Bool.false_eq_true, if_false]
    refine congrArg Except.ok (update_self fun u hu hname => ?_)
    rw [TableDef.withCheck, ← hchecks u hu hname]

/-- The checks of a table that is there are changed by replacing one only. -/
theorem checks_kept {c : SchemaChange} {table : String} (hc : ∀ check, c ≠ .replaceCheck table check)
    (hsome : (s.find table).isSome = true) (h : c.exec cells s = .ok s') :
    ∀ t' ∈ s'.tables, t'.name = table → ∃ t ∈ s.tables, t.name = table ∧ t'.checks = t.checks := by
  have hsame : ∀ {name : String} {f : TableDef → TableDef}, (∀ t, (f t).name = t.name) →
      (∀ t, t.name = table → t.name = name → (f t).checks = t.checks) →
      ∀ t' ∈ (s.update name f).tables, t'.name = table →
        ∃ t ∈ s.tables, t.name = table ∧ t'.checks = t.checks := by
    intro name f hf hchecks t' ht' hname
    obtain ⟨t, ht, rfl⟩ := List.mem_map.mp ht'
    by_cases heq : t.name = name
    · rw [if_pos heq] at hname ⊢
      rw [hf] at hname
      exact ⟨t, ht, hname, hchecks t hname heq⟩
    · rw [if_neg heq] at hname ⊢
      exact ⟨t, ht, hname, rfl⟩
  cases c with
  | createTable t =>
    obtain ⟨u, hu, hrest⟩ := Ensure.applyAll_cons_ok.mp h
    cases hrest
    rw [Statement.exec] at hu
    split_ifs at hu with hthere
    · cases hu
      exact fun t' ht' hname => ⟨t', ht', hname, rfl⟩
    · split at hu
      · cases hu
      · split at hu
        · cases hu
        · cases hu
          intro t' ht' hname
          rcases List.mem_append.mp ht' with ht' | ht'
          · exact ⟨t', ht', hname, rfl⟩
          · -- the table would have been there
            rw [List.mem_singleton.mp ht'] at hname
            rw [hname] at hthere
            exact absurd hsome hthere
  | addColumn name c =>
    obtain ⟨u, hu, hrest⟩ := Ensure.applyAll_cons_ok.mp h
    cases hrest
    rw [Statement.exec] at hu
    split at hu
    · cases hu
    · split at hu
      · cases hu
        exact fun t' ht' hname => ⟨t', ht', hname, rfl⟩
      · split at hu
        · cases hu
        · split at hu
          · cases hu
          · cases hu
            exact hsame (fun _ => rfl) fun _ _ _ => rfl
  | createIndex i =>
    obtain ⟨u, hu, hrest⟩ := Ensure.applyAll_cons_ok.mp h
    cases hrest
    rw [Statement.exec] at hu
    split_ifs at hu
    · cases hu
      exact fun t' ht' hname => ⟨t', ht', hname, rfl⟩
    · split at hu
      · cases hu
      · split at hu
        · cases hu
        · cases hu
          exact fun t' ht' hname => ⟨t', ht', hname, rfl⟩
  | replaceCheck name check =>
    rw [exec_replaceCheck] at h
    split at h
    · cases h
    · split_ifs at h
      cases h
      refine hsame (fun _ => rfl) fun t hname hname' => ?_
      exact absurd (hname.symm.trans hname' ▸ rfl) (hc check)

/-- **What a change ensures is not taken away** by one that does not replace another check there. -/
theorem kept {a b : SchemaChange} (hab : ∀ table check check', a = .replaceCheck table check →
    b = .replaceCheck table check' → check = check') (ha : a.Holds s) (hb : b.exec cells s = .ok s') :
    a.Holds s' := by
  by_cases hreplace : ∃ table check, a = .replaceCheck table check
  · obtain ⟨table, check, rfl⟩ := hreplace
    by_cases hsame : ∃ check', b = .replaceCheck table check'
    · obtain ⟨check', rfl⟩ := hsame
      rw [hab table check check' rfl rfl]
      exact made hb
    · obtain ⟨⟨t, ht, hcol⟩, hchecks⟩ := ha
      obtain ⟨t', ht', hcols⟩ := (exec_extends hb).tables table t ht
      refine ⟨⟨t', ht', hcols _ hcol⟩, fun u' hu' hname => ?_⟩
      obtain ⟨u, hu, hname', heq⟩ := checks_kept (fun check' h => hsame ⟨check', h⟩)
        (by rw [ht]; rfl) hb u' hu' hname
      rw [heq]
      exact hchecks u hu hname'
  · exact holds_extends (fun table check h => hreplace ⟨table, check, h⟩) ha (exec_extends hb)

end SchemaChange

/-- Rows that a change admits make no difference to it. -/
theorem SchemaChange.exec_admits {c : SchemaChange} (hc : c.Admits cells) :
    c.exec cells s = c.exec [] s := by
  cases c with
  | createTable t => rfl
  | createIndex i => rfl
  | addColumn table c =>
    have hnull : ∀ rows : List RowValue, (∀ x ∈ rows, x ∈ cells) →
        (c.notNull && c.default.isNone && rows.any fun x => x.table = table) = false := by
      intro rows hrows
      rw [Bool.eq_false_iff]
      intro h
      simp only [Bool.and_eq_true, List.any_eq_true, decide_eq_true_eq] at h
      obtain ⟨⟨hn, hd⟩, x, hx, hname⟩ := h
      exact hc hn hd x (hrows x hx) hname
    simp only [exec, statements, Ensure.applyAll, Statement.exec, hnull cells fun _ h => h,
      hnull [] fun _ h => absurd h List.not_mem_nil]
  | replaceCheck table check =>
    have hfine : violates cells table check = false := by
      rw [violates, Bool.eq_false_iff, ne_eq, List.any_eq_true]
      rintro ⟨x, hx, hbad⟩
      simp only [Bool.and_eq_true, decide_eq_true_eq, Bool.not_eq_true', List.contains_eq_mem,
        decide_eq_false_iff_not] at hbad
      exact hbad.2 (hc x hx hbad.1.1 hbad.1.2)
    rw [exec_replaceCheck, exec_replaceCheck, hfine]
    rfl

/-- **Changes ensure something** where no table has two checks that are replaced. -/
theorem lawful_changes {ops : List SchemaChange} (hops : ∀ table check check',
    SchemaChange.replaceCheck table check ∈ ops → SchemaChange.replaceCheck table check' ∈ ops →
      check = check') :
    Ensure.Lawful (SchemaChange.exec []) SchemaChange.Holds ops where
  made _ h := SchemaChange.made h
  same {a s} _ h := by
    refine SchemaChange.same ?_ h
    cases a with
    | addColumn table c => exact fun _ _ x hx => absurd hx List.not_mem_nil
    | replaceCheck table check => exact fun x hx => absurd hx List.not_mem_nil
    | createTable t => trivial
    | createIndex i => trivial
  kept ha hb hholds h := by
    refine SchemaChange.kept (fun table check check' hac hbc => ?_) hholds h
    subst hac hbc
    exact hops table check check' ha hb

end Laws

/-! ## The files -/

namespace Column

def of (name : String) (type : SqlType) : Column := ⟨name, type, false, none, none⟩

def required (c : Column) : Column := { c with notNull := true }

def defaulting (c : Column) (value : String) : Column := { c with default := some value }

def referring (c : Column) (table : String) (onDelete : OnDelete) : Column :=
  { c with references := some (table, onDelete) }

end Column

open Column in
/-- `001_init.sql` -/
def initSql : List SchemaChange := [
  .createTable ⟨"ci_run",
    [required (of "id" .text), required (of "workflow_id" .text), required (of "workflow_path" .text),
      of "workflow_name" .text, required (defaulting (of "repo_url" .text) "''"),
      required (defaulting (of "git_ref" .text) "''"), required (defaulting (of "sha" .text) "''"),
      required (defaulting (of "before_sha" .text) "''"), of "actor_subject" .text,
      of "actor_email" .text, required (defaulting (of "source" .text) "'submit'"),
      required (of "status" .text), of "error" .text,
      required (defaulting (of "created_at" .timestamptz) "now()"), of "started_at" .timestamptz,
      of "finished_at" .timestamptz],
    [["id"]],
    [⟨"ci_run_status_check", "status", ["queued", "running", "success", "failure", "cancelled"]⟩]⟩,
  .createIndex ⟨"ci_run_created_idx", "ci_run", ["created_at"], ["created_at"], none⟩,
  .createIndex ⟨"ci_run_workflow_idx", "ci_run", ["workflow_id", "created_at"], ["created_at"], none⟩,
  .createTable ⟨"ci_job",
    [required (of "id" .text), required (referring (of "run_id" .text) "ci_run" .cascade),
      required (of "job_key" .text), required (of "base_id" .text), required (of "display" .text),
      of "network" .text, of "runner_hd_id" .text, of "fingerprint" .text, of "sandbox_id" .text,
      required (of "status" .text), required (defaulting (of "attempt" .integer) "1"),
      required (defaulting (of "matrix" .jsonb) "'\x7b\x7d'::jsonb"),
      required (defaulting (of "outputs" .jsonb) "'\x7b\x7d'::jsonb"), of "error" .text,
      required (defaulting (of "created_at" .timestamptz) "now()"), of "started_at" .timestamptz,
      of "finished_at" .timestamptz],
    [["id"], ["run_id", "job_key"]],
    [⟨"ci_job_status_check", "status",
      ["pending", "queued", "running", "success", "failure", "skipped", "cancelled"]⟩]⟩,
  .createIndex ⟨"ci_job_run_idx", "ci_job", ["run_id"], [], none⟩,
  .createIndex ⟨"ci_job_runner_idx", "ci_job", ["runner_hd_id", "status"], [], none⟩,
  .addColumn "ci_job" (required (defaulting (of "plan" .jsonb) "'\x7b\x7d'::jsonb")),
  .createTable ⟨"ci_step",
    [required (of "id" .text), required (referring (of "job_id" .text) "ci_job" .cascade),
      required (of "idx" .integer), required (of "name" .text), of "uses" .text,
      required (of "status" .text), of "exit_code" .integer, of "operation_id" .text,
      of "log_path" .text, required (defaulting (of "log_bytes" .bigint) "0"), of "error" .text,
      of "started_at" .timestamptz, of "finished_at" .timestamptz],
    [["id"], ["job_id", "idx"]],
    [⟨"ci_step_status_check", "status", ["pending", "running", "success", "failure", "skipped"]⟩]⟩,
  .createIndex ⟨"ci_step_job_idx", "ci_step", ["job_id", "idx"], [], none⟩,
  .createTable ⟨"ci_artifact",
    [required (of "id" .text), required (referring (of "run_id" .text) "ci_run" .cascade),
      referring (of "job_id" .text) "ci_job" .setNull, required (of "name" .text),
      required (of "sink" .text), of "digest" .text,
      required (defaulting (of "size_bytes" .bigint) "0"), required (of "uri" .text),
      required (defaulting (of "created_at" .timestamptz) "now()")],
    [["id"]], []⟩,
  .createIndex ⟨"ci_artifact_run_idx", "ci_artifact", ["run_id"], [], none⟩,
  .createTable ⟨"ci_vm_pool",
    [required (of "sandbox_id" .text), required (of "runner_hd_id" .text),
      required (of "fingerprint" .text), required (defaulting (of "workflow_id" .text) "''"),
      required (of "status" .text), of "claimed_by_job" .text,
      required (defaulting (of "created_at" .timestamptz) "now()"),
      required (defaulting (of "last_used_at" .timestamptz) "now()")],
    [["sandbox_id"]],
    [⟨"ci_vm_pool_status_check", "status", ["idle", "claimed", "draining"]⟩]⟩,
  .createIndex ⟨"ci_vm_pool_claim_idx", "ci_vm_pool", ["runner_hd_id", "fingerprint", "status"], [],
    none⟩,
  .createTable ⟨"ci_user",
    [required (of "subject" .text), required (of "email" .text), of "name" .text,
      required (defaulting (of "role" .text) "'viewer'"),
      required (defaulting (of "created_at" .timestamptz) "now()"),
      required (defaulting (of "last_seen_at" .timestamptz) "now()")],
    [["subject"]],
    [⟨"ci_user_role_check", "role", ["viewer", "admin"]⟩]⟩]

open Column in
/-- `002_repos.sql` -/
def reposSql : List SchemaChange := [
  .createTable ⟨"ci_repo",
    [required (of "id" .text), required (of "url" .text), required (of "normalized" .text),
      required (of "name" .text), of "workflow_path" .text,
      required (defaulting (of "enabled" .boolean) "TRUE"), of "created_by" .text,
      of "created_email" .text, required (defaulting (of "created_at" .timestamptz) "now()")],
    [["id"], ["normalized"]], []⟩,
  .createTable ⟨"ci_repo_token",
    [required (of "id" .text), required (referring (of "repo_id" .text) "ci_repo" .cascade),
      required (defaulting (of "name" .text) "''"), required (of "secret_hash" .text),
      of "created_by" .text, of "created_email" .text,
      required (defaulting (of "created_at" .timestamptz) "now()"), of "last_used_at" .timestamptz,
      of "revoked_at" .timestamptz],
    [["id"]], []⟩,
  .createIndex ⟨"ci_repo_token_repo_idx", "ci_repo_token", ["repo_id", "created_at"], ["created_at"],
    none⟩,
  .addColumn "ci_run" (referring (of "repo_id" .text) "ci_repo" .setNull),
  .createIndex ⟨"ci_run_repo_idx", "ci_run", ["repo_id", "created_at"], ["created_at"], none⟩]

/-- `003_repo_network.sql` -/
def repoNetworkSql : List SchemaChange := [.addColumn "ci_repo" (.of "network" .text)]

/-- `004_vm_lease.sql` -/
def vmLeaseSql : List SchemaChange := [
  .addColumn "ci_vm_pool" (.of "leased_by" .text),
  .addColumn "ci_vm_pool" (.of "leased_until" .timestamptz),
  .createIndex ⟨"ci_vm_pool_lease_idx", "ci_vm_pool", ["status", "leased_until"], [], none⟩]

/-- `005_vm_last_job.sql` -/
def vmLastJobSql : List SchemaChange := [.addColumn "ci_vm_pool" (.of "last_job" .text)]

/-- `006_job_queued_at.sql` -/
def jobQueuedAtSql : List SchemaChange := [
  .addColumn "ci_job" (.of "queued_at" .timestamptz),
  .createIndex ⟨"ci_job_queued_idx", "ci_job", ["status", "queued_at"], [], none⟩]

/-- The values that a row of the pool may have from `007_vm_building.sql` on. -/
def poolStatusCheck : CheckDef :=
  ⟨"ci_vm_pool_status_check", "status", ["building", "idle", "claimed", "draining"]⟩

/-- `007_vm_building.sql` -/
def vmBuildingSql : List SchemaChange := [
  .replaceCheck "ci_vm_pool" poolStatusCheck,
  .createIndex ⟨"ci_vm_pool_building_idx", "ci_vm_pool", ["status", "leased_until"], [],
    some "status = 'building'"⟩]

open Column in
/-- `008_vm_image.sql` -/
def vmImageSql : List SchemaChange := [
  .createTable ⟨"ci_vm_image",
    [required (of "name" .text), required (of "runner_hd_id" .text),
      required (defaulting (of "workflow_id" .text) "''"), required (of "status" .text),
      of "built_by_job" .text, required (defaulting (of "size_bytes" .bigint) "0"), of "error" .text,
      of "leased_until" .timestamptz, required (defaulting (of "created_at" .timestamptz) "now()"),
      of "ready_at" .timestamptz],
    [["name", "runner_hd_id"]],
    [⟨"ci_vm_image_status_check", "status", ["building", "ready", "failed"]⟩]⟩,
  .createIndex ⟨"ci_vm_image_runner_idx", "ci_vm_image", ["runner_hd_id", "created_at"],
    ["created_at"], none⟩]

/-- `009_run_changes.sql` -/
def runChangesSql : List SchemaChange := [
  .addColumn "ci_run" (.required (.defaulting (.of "changes" .jsonb)
    "'\x7b\"kind\":\"unknown\",\"reason\":\"this run predates change detection\"\x7d'::jsonb"))]

/-- The files of `migrations/` in the order of their names. -/
def migrations : List (List SchemaChange) := [initSql, reposSql, repoNetworkSql, vmLeaseSql,
  vmLastJobSql, jobQueuedAtSql, vmBuildingSql, vmImageSql, runChangesSql]

/-- A file is one transaction. -/
def execFile (cells : List RowValue) (file : List SchemaChange) (s : Schema) :
    Except SqlError Schema :=
  Ensure.applyAll (SchemaChange.exec cells) file s

/-- The database behind the first `k` files. -/
def schemaAt (k : ℕ) : Except SqlError Schema :=
  Ensure.applyAll (execFile []) (migrations.take k) ⟨[], []⟩

/-- A check of the pool's status that is not wider than the last one. -/
def Schema.narrow (s : Schema) : Bool := s.tables.all fun t => t.name ≠ "ci_vm_pool" ||
  t.checks.any fun c => c.column = "status" && c.values.all fun v => poolStatusCheck.values.contains v

/-- At every number of files the database is there, and its rows are none that later ones refuse. -/
theorem schemaAt_narrow_all : ∀ k < 10, (schemaAt k).toOption.any Schema.narrow = true := by
  decide

theorem schemaAt_add {k : ℕ} (hk : migrations.length ≤ k) :
    schemaAt k = schemaAt migrations.length := by
  rw [schemaAt, schemaAt, List.take_of_length_le hk, List.take_length]

theorem schemaAt_narrow (k : ℕ) : ∃ s, schemaAt k = .ok s ∧ s.narrow = true := by
  have hall : ∀ j < 10, ∃ s, schemaAt j = .ok s ∧ s.narrow = true := by
    intro j hj
    have h := schemaAt_narrow_all j hj
    cases hs : schemaAt j with
    | error e =>
      rw [hs] at h
      cases h
    | ok s =>
      rw [hs] at h
      exact ⟨s, rfl, h⟩
  by_cases hk : k < 10
  · exact hall k hk
  · rw [schemaAt_add (Nat.le_trans (by decide) (Nat.le_of_not_lt hk))]
    exact hall 9 (by decide)

/-- One check is replaced by the files. -/
theorem replaced {table : String} {check : CheckDef}
    (h : SchemaChange.replaceCheck table check ∈ migrations.flatten) :
    table = "ci_vm_pool" ∧ check = poolStatusCheck := by
  simpa only [migrations, initSql, reposSql, repoNetworkSql, vmLeaseSql, vmLastJobSql, jobQueuedAtSql,
    vmBuildingSql, vmImageSql, runChangesSql, List.flatten_cons, List.flatten_nil, List.append_nil,
    List.mem_append, List.mem_cons, List.not_mem_nil, or_false, reduceCtorEq, false_or,
    SchemaChange.replaceCheck.injEq] using h

theorem lawful_migrations :
    Ensure.Lawful (execFile []) (fun f s => ∀ c ∈ f, c.Holds s) migrations := by
  have hops : Ensure.Lawful (SchemaChange.exec []) SchemaChange.Holds migrations.flatten :=
    lawful_changes fun _ _ _ h h' => (replaced h).2.trans (replaced h').2.symm
  exact hops.lists fun f hf c hc => List.mem_flatten.mpr ⟨f, hf, hc⟩

/-- The rows of the pool have the values that the last check allows. -/
def Allowed (cells : List RowValue) : Prop :=
  ∀ x ∈ cells, x.table = "ci_vm_pool" → x.column = "status" → x.value ∈ poolStatusCheck.values

theorem Allowed.exec {cells : List RowValue} (h : Allowed cells) {file : List SchemaChange}
    (hfile : file ∈ migrations) (s : Schema) : execFile cells file s = execFile [] file s := by
  refine Ensure.applyAll_congr fun c hc t => SchemaChange.exec_admits ?_
  have hmem := List.mem_flatten.mpr ⟨file, hfile, hc⟩
  cases c with
  | createTable t => trivial
  | createIndex i => trivial
  | addColumn table c =>
    -- the columns that need a value have a default
    have hdefault : ∀ c ∈ migrations.flatten, ∀ table col, c = SchemaChange.addColumn table col →
        col.notNull = true → col.default.isNone = false := by
      simp [migrations, initSql, reposSql, repoNetworkSql, vmLeaseSql, vmLastJobSql, jobQueuedAtSql,
        vmBuildingSql, vmImageSql, runChangesSql, Column.of, Column.required, Column.defaulting,
        Column.referring]
    intro hnull hnone
    rw [hdefault _ hmem table c rfl hnull] at hnone
    cases hnone
  | replaceCheck table check =>
    obtain ⟨rfl, rfl⟩ := replaced hmem
    exact fun x hx htable hcol => h x hx htable hcol

/-- The next file, wherever an instance is with its own, is one that is there already, or one more. -/
theorem exec_next {k n done : ℕ} {s : Schema} {cells : List RowValue} {file : List SchemaChange}
    (hk : schemaAt k = .ok s) (hcells : Allowed cells) (hdone : done ≤ k)
    (hfile : (migrations.take n)[done]? = some file) :
    ∃ s' l, execFile cells file s = .ok s' ∧ schemaAt l = .ok s' ∧ k ≤ l ∧ done + 1 ≤ l := by
  have hfile' : migrations[done]? = some file := by
    rw [List.getElem?_take] at hfile
    split_ifs at hfile
    exact hfile
  rw [hcells.exec (List.mem_of_getElem? hfile')]
  obtain ⟨hearlier, hnext⟩ := lawful_migrations.next hk hfile'
  rcases Nat.lt_or_eq_of_le hdone with hlt | heq
  · exact ⟨s, k, hearlier hlt, hk, Nat.le_refl k, hlt⟩
  · obtain ⟨s', hs', -⟩ := schemaAt_narrow (k + 1)
    exact ⟨s', k + 1, (hnext heq).symm.trans hs', hs', Nat.le_succ k, Nat.succ_le_succ hdone⟩

/-- What the files of a version ensure is there behind at least as many. -/
theorem holds_of_level {k n : ℕ} {s : Schema} (hk : schemaAt k = .ok s)
    (hn : (migrations.take n).length ≤ k) : ∀ file ∈ migrations.take n, ∀ c ∈ file, c.Holds s := by
  intro file hfile
  refine lawful_migrations.holds_applyAll (List.take_subset k migrations) hk file ?_
  obtain ⟨j, hj, rfl⟩ := List.mem_iff_getElem.mp hfile
  rw [List.getElem_take]
  exact List.mem_take_iff_getElem.mpr ⟨j, by
    have := List.length_take_le' n migrations
    omega, rfl⟩

/-- The columns and the checks of the database allow a value. -/
def Schema.takes (s : Schema) (x : RowValue) : Bool := (s.find x.table).any fun t =>
  t.hasColumn x.column && t.checks.all fun c => c.column ≠ x.column || c.values.contains x.value

/-- What the database takes is allowed at every number of files. -/
theorem allowed_of_takes {k : ℕ} {s : Schema} (hk : schemaAt k = .ok s) {x : RowValue}
    (hx : s.takes x = true) (htable : x.table = "ci_vm_pool") (hcol : x.column = "status") :
    x.value ∈ poolStatusCheck.values := by
  obtain ⟨s', hs', hnarrow⟩ := schemaAt_narrow k
  obtain rfl : s' = s := Except.ok.inj (hs'.symm.trans hk)
  obtain ⟨t, ht, hall⟩ := (Option.any_eq_true _ _).mp hx
  have hname : t.name = "ci_vm_pool" := (find_name ht).trans htable
  have htables := List.all_eq_true.mp hnarrow t (List.mem_of_find?_eq_some ht)
  simp only [hname, ne_eq, not_true_eq_false, decide_false, Bool.false_or, List.any_eq_true,
    Bool.and_eq_true, decide_eq_true_eq, List.all_eq_true] at htables
  obtain ⟨c, hc, hstatus, hvalues⟩ := htables
  have hin := List.all_eq_true.mp (Bool.and_eq_true_iff.mp hall).2 c hc
  simp only [hstatus, hcol, ne_eq, not_true_eq_false, decide_false, Bool.false_or,
    List.contains_iff_mem] at hin
  exact List.contains_iff_mem.mp (hvalues _ hin)

/-! ## Instances that start -/

inductive StartError where
  | sql (e : SqlError)
  | noFiles
  /-- What else the database or the directory says: a lock that is not had, a connection that ends. -/
  | refused (text : String)
  deriving Repr, DecidableEq

def migrationAttempts : ℕ := 5

def isLockContention (text : String) : Bool :=
  "deadlock detected".toList <:+: text.toList || "lock timeout".toList <:+: text.toList ||
    "canceling statement due to lock timeout".toList <:+: text.toList

/-- Where an instance is in `migrate`. -/
inductive Start where
  | down
  | locking (attempt : ℕ)
  /-- It has the lock, and so many files are behind it. -/
  | applying (attempt done : ℕ)
  /-- It sleeps behind this attempt. -/
  | waiting (attempt : ℕ)
  | started
  | failed (e : StartError)
  deriving Repr, DecidableEq

/-- Behind an attempt that was refused. -/
def Start.retry (attempt : ℕ) (text : String) : Start :=
  if isLockContention text && attempt < migrationAttempts then .waiting attempt
  else .failed (.refused text)

/-- One database and the instances that start on it. -/
structure Installation (ι : Type*) where
  schema : Schema
  cells : List RowValue
  lock : Option ι
  starts : ι → Start

/-- One thing that happens to the database. -/
inductive StartLabel (ι : Type*) where
  | start (i : ι)
  | lock (i : ι)
  | file (i : ι)
  | refused (i : ι) (text : String)
  | wake (i : ι)
  | crash (i : ι)
  /-- Rows are written and deleted: these are there then. -/
  | rows (cells : List RowValue)

section Starts

variable {ι : Type*}

/-- Where an instance can be when so many files are applied. -/
def Start.Fits (ships : ι → ℕ) (k : ℕ) (lock : Option ι) (i : ι) : Start → Prop
  | .locking n => n ≤ migrationAttempts
  | .applying n done => n ≤ migrationAttempts ∧ lock = some i ∧ done ≤ k
  | .waiting n => n < migrationAttempts
  | .started => (migrations.take (ships i)).length ≤ k
  | .failed (.sql _) => False
  | _ => True

/-- The database is that behind so many of the files. -/
structure Levelled (ships : ι → ℕ) (k : ℕ) (σ : Installation ι) : Prop where
  level : schemaAt k = .ok σ.schema
  allowed : Allowed σ.cells
  fits : ∀ i, (σ.starts i).Fits ships k σ.lock i

variable {ships : ι → ℕ} {k l : ℕ} {σ τ : Installation ι} {lock lock' : Option ι}

theorem Start.Fits.mono {st : Start} {i : ι} (h : st.Fits ships k lock i) (hk : k ≤ l)
    (hlock : lock = some i → lock' = some i) : st.Fits ships l lock' i := by
  cases st with
  | applying n done => exact ⟨h.1, hlock h.2.1, Nat.le_trans h.2.2 hk⟩
  | started => exact Nat.le_trans h hk
  | failed e => cases e <;> exact h
  | _ => exact h

theorem Start.retry_fits (n : ℕ) (text : String) (i : ι) :
    (Start.retry n text).Fits ships k lock i := by
  rw [Start.retry]
  split_ifs with h
  · rw [Bool.and_eq_true, decide_eq_true_eq] at h
    exact h.2
  · trivial

variable [DecidableEq ι]

/-- An instance gets somewhere, and the lock goes to someone. -/
def Installation.put (σ : Installation ι) (i : ι) (st : Start) (lock : Option ι) : Installation ι :=
  { σ with lock, starts := Function.update σ.starts i st }

/-- An instance comes with the first so many of the files: later versions have more of them. -/
def Installation.step (ships : ι → ℕ) (σ : Installation ι) : StartLabel ι → Option (Installation ι)
  | .start i => match σ.starts i with
    | .down | .failed _ => some (σ.put i (.locking 1) σ.lock)
    | _ => none
  | .lock i => match σ.starts i, σ.lock with
    | .locking n, none =>
      if (migrations.take (ships i)).isEmpty then some (σ.put i (.failed .noFiles) none)
      else some (σ.put i (.applying n 0) (some i))
    | _, _ => none
  | .file i => match σ.starts i with
    | .applying n done => match (migrations.take (ships i))[done]? with
      | none => some (σ.put i .started none)
      | some file => match execFile σ.cells file σ.schema with
        | .ok s => some { σ.put i (.applying n (done + 1)) σ.lock with schema := s }
        | .error e => some (σ.put i (.failed (.sql e)) none)
    | _ => none
  | .refused i text => match σ.starts i with
    | .locking n => some (σ.put i (.retry n text) σ.lock)
    | .applying n _ => some (σ.put i (.retry n text) none)
    | _ => none
  | .wake i => match σ.starts i with
    | .waiting n => some (σ.put i (.locking (n + 1)) σ.lock)
    | _ => none
  -- a connection that is dropped gives the lock back
  | .crash i => some (σ.put i .down (if σ.lock = some i then none else σ.lock))
  | .rows cells =>
    if ∀ x ∈ cells, x ∈ σ.cells ∨ σ.schema.takes x = true then some { σ with cells } else none

/-- Any number of instances on a database that was empty once. -/
def migrating (ships : ι → ℕ) : Machine (Installation ι) (StartLabel ι) where
  init σ := σ.schema = ⟨[], []⟩ ∧ σ.cells = [] ∧ σ.lock = none ∧ ∀ i, σ.starts i = .down
  step := Installation.step ships

/-- An instance that moves leaves the others where they fit. -/
theorem Levelled.put (h : Levelled ships k σ) {i : ι} {st : Start} {lock : Option ι}
    (hst : st.Fits ships k lock i) (hlock : ∀ j, j ≠ i → σ.lock = some j → lock = some j) :
    Levelled ships k (σ.put i st lock) := by
  refine ⟨h.level, h.allowed, fun j => ?_⟩
  by_cases hj : j = i
  · subst hj
    change (Function.update σ.starts j st j).Fits ships k lock j
    rw [Function.update_self]
    exact hst
  · change (Function.update σ.starts i st j).Fits ships k lock j
    rw [Function.update_of_ne hj]
    exact (h.fits j).mono (Nat.le_refl k) (hlock j hj)

/-- **One thing that happens** leaves a database behind as many files, or one more. -/
theorem Levelled.step (h : Levelled ships k σ) {a : StartLabel ι}
    (hs : (migrating ships).step σ a = some τ) : ∃ l, k ≤ l ∧ Levelled ships l τ := by
  have hle := Nat.le_refl k
  cases a with
  | start i =>
    change (match σ.starts i with | .down | .failed _ => _ | _ => _) = _ at hs
    split at hs
    · cases hs
      exact ⟨k, hle, h.put (by decide : 1 ≤ 5) fun _ _ hl => hl⟩
    · cases hs
      exact ⟨k, hle, h.put (by decide : 1 ≤ 5) fun _ _ hl => hl⟩
    · cases hs
  | lock i =>
    change (match σ.starts i, σ.lock with | .locking n, none => _ | _, _ => _) = _ at hs
    split at hs
    · rename_i n hi hnone
      have hfits := h.fits i
      rw [hi] at hfits
      split_ifs at hs
      · cases hs
        exact ⟨k, hle, h.put trivial fun _ _ hl => hnone ▸ hl⟩
      · cases hs
        refine ⟨k, hle, h.put ⟨hfits, rfl, Nat.zero_le k⟩ fun j _ hl => ?_⟩
        rw [hnone] at hl
        cases hl
    · cases hs
  | file i =>
    change (match σ.starts i with | .applying n done => _ | _ => _) = _ at hs
    split at hs
    · rename_i n done hi
      have hfits := h.fits i
      rw [hi] at hfits
      obtain ⟨hn, hlock, hdone⟩ := hfits
      -- nobody else had the lock
      have hothers : ∀ j, j ≠ i → σ.lock = some j → none = some j := by
        intro j hj hl
        exact absurd (Option.some.inj (hl.symm.trans hlock)) hj
      split at hs
      · rename_i hend
        cases hs
        exact ⟨k, hle, h.put (Nat.le_trans (List.getElem?_eq_none_iff.mp hend) hdone) hothers⟩
      · rename_i file hfile
        obtain ⟨s, l, hexec, hlevel, hkl, hdl⟩ := exec_next h.level h.allowed hdone hfile
        rw [hexec] at hs
        cases hs
        have hexecuted : Levelled ships l { σ with schema := s } :=
          ⟨hlevel, h.allowed, fun j => (h.fits j).mono hkl id⟩
        exact ⟨l, hkl, hexecuted.put ⟨hn, hlock, hdl⟩ fun _ _ hl => hl⟩
    · cases hs
  | refused i text =>
    change (match σ.starts i with | .locking n => _ | .applying n _ => _ | _ => _) = _ at hs
    split at hs
    · cases hs
      exact ⟨k, hle, h.put (Start.retry_fits _ _ _) fun _ _ hl => hl⟩
    · rename_i n done hi
      have hfits := h.fits i
      rw [hi] at hfits
      cases hs
      refine ⟨k, hle, h.put (Start.retry_fits _ _ _) fun j hj hl => ?_⟩
      exact absurd (Option.some.inj (hl.symm.trans hfits.2.1)) hj
    · cases hs
  | wake i =>
    change (match σ.starts i with | .waiting n => _ | _ => _) = _ at hs
    split at hs
    · rename_i n hi
      have hfits := h.fits i
      rw [hi] at hfits
      cases hs
      exact ⟨k, hle, h.put hfits fun _ _ hl => hl⟩
    · cases hs
  | crash i =>
    cases hs
    refine ⟨k, hle, h.put trivial fun j hj hl => ?_⟩
    rw [hl, if_neg fun heq => hj (Option.some.inj heq)]
  | rows cells =>
    change (if ∀ x ∈ cells, x ∈ σ.cells ∨ σ.schema.takes x = true then _ else _) = _ at hs
    split_ifs at hs with hrows
    cases hs
    refine ⟨k, hle, h.level, fun x hx htable hcol => ?_, h.fits⟩
    rcases hrows x hx with hold | hnew
    · exact h.allowed x hold htable hcol
    · exact allowed_of_takes h.level hnew htable hcol

theorem settled_init (h : (migrating ships).init σ) : Levelled ships 0 σ := by
  obtain ⟨hschema, hcells, hlock, hstarts⟩ := h
  refine ⟨by rw [hschema]; rfl, fun x hx => ?_, fun i => ?_⟩
  · rw [hcells] at hx
    exact absurd hx List.not_mem_nil
  · rw [hstarts i]
    trivial

theorem Levelled.run (h : Levelled ships k σ) (hr : (migrating ships).Reach Machine.anyStep σ τ) :
    ∃ l, k ≤ l ∧ Levelled ships l τ := by
  refine hr.inv (fun τ => ∃ l, k ≤ l ∧ Levelled ships l τ) ?_ ⟨k, Nat.le_refl k, h⟩
  rintro s a s' ⟨l, hl, hset⟩ - hs
  obtain ⟨l', hl', hset'⟩ := hset.step hs
  exact ⟨l', Nat.le_trans hl hl', hset'⟩

/-- **However many instances start, in whatever versions, and wherever they stop**, the database is
that behind so many of the files, and no file fails on it; what the files of an instance that started
ensure is there from then on. -/
theorem migrations_settle (ships : ι → ℕ) {σ τ : Installation ι}
    (hσ : (migrating ships).Reachable Machine.anyStep σ)
    (hτ : (migrating ships).Reach Machine.anyStep σ τ) :
    ∃ k l, k ≤ l ∧ schemaAt k = .ok σ.schema ∧ schemaAt l = .ok τ.schema ∧
      (∀ i, σ.starts i = .started →
        ∀ file ∈ migrations.take (ships i), ∀ c ∈ file, c.Holds τ.schema) ∧
      (∀ i n done file, τ.starts i = .applying n done →
        (migrations.take (ships i))[done]? = some file →
        ∃ s, execFile τ.cells file τ.schema = .ok s) ∧
      (∀ i e, τ.starts i ≠ .failed (.sql e)) ∧
      ∀ i n, τ.starts i = .locking n → n ≤ migrationAttempts := by
  obtain ⟨σ₀, hinit, hr⟩ := hσ
  obtain ⟨k, -, hk⟩ := (settled_init hinit).run hr
  obtain ⟨l, hkl, hl⟩ := hk.run hτ
  have hfits : ∀ {i st}, τ.starts i = st → st.Fits ships l τ.lock i := fun h => h ▸ hl.fits _
  refine ⟨k, l, hkl, hk.level, hl.level, fun i hi => ?_, fun i n done file hi hfile => ?_,
    fun i e hi => ?_, fun i n hi => hfits hi⟩
  · have hstarted := hk.fits i
    rw [hi] at hstarted
    exact holds_of_level hl.level (Nat.le_trans hstarted hkl)
  · obtain ⟨s, -, hs, -⟩ := exec_next hl.level hl.allowed (hfits hi).2.2 hfile
    exact ⟨s, hs⟩
  · exact hfits hi

/-- One that comes with the first file starts, another one with all of them is at its second. -/
def twoStarts : List (StartLabel Bool) := [.start false, .lock false, .file false, .file false,
  .rows [⟨"ci_vm_pool", "status", "idle"⟩], .start true, .lock true, .file true]

theorem migrations_settle_two : ∃ σ : Installation Bool, σ.starts true = .applying 1 1 ∧
    ∀ c ∈ initSql, c.Holds σ.schema := by
  have hrun : (((migrating fun b => if b then 9 else 1).run
      ⟨⟨[], []⟩, [], none, fun _ => .down⟩ twoStarts).map fun σ => (σ.starts false, σ.starts true)) =
      some (.started, .applying 1 1) := by
    decide
  obtain ⟨σ, hσ, hstarts⟩ := Option.map_eq_some_iff.mp hrun
  have hinit : (migrating fun b => if b then 9 else 1).init
      (⟨⟨[], []⟩, [], none, fun _ => .down⟩ : Installation Bool) := ⟨rfl, rfl, rfl, fun _ => rfl⟩
  have hreach := Machine.reachable_of_run hinit hσ
  obtain ⟨-, -, -, -, -, hholds, -⟩ := migrations_settle _ hreach Machine.Reach.refl
  exact ⟨σ, (Prod.mk.inj hstarts).2,
    hholds false (Prod.mk.inj hstarts).1 initSql (by simp [migrations])⟩

end Starts

end HeyoCi
