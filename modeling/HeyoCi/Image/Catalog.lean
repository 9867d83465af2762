import HeyoCi.Lib.Machine
import HeyoCi.Lib.Table

/-!
# Who builds an image

The catalog has a row for each image and host. A claim on it is one statement, and it is answered
`Build` when nobody has a lease on the row that has not run out. The updates that follow name the
image and the host, but not the job.

* `VmImage`, `Catalog`: the columns of `ci_vm_image`, the table with its clock;
* `Catalog.claim`, `Catalog.renew`, …: the operations, as in the source;
* `Builder`, `BuildWorld`, `buildMachine`: the jobs that were told to build, and what they do;
* `BuildWorld.Exclusive`: nobody would be told to build next to another job;
* `BuildWorld.Spares`: a failure or a `forget` leaves no other job with a live lease;
* **`exclusive_iff`**: the one holds of a run exactly when the other does;
* `late_failure`: a builder whose lease lapsed reports its failure on the row of the next one.
-/

namespace HeyoCi

inductive ImageStatus where
  | building
  | ready
  | failed
  deriving Repr, DecidableEq

/-- An image on a host. -/
structure ImageKey where
  name : String
  runner : String
  deriving Repr, DecidableEq

/-- A row of `ci_vm_image`. -/
structure VmImage where
  key : ImageKey
  workflowId : String
  status : ImageStatus
  builtByJob : Option String
  leasedUntil : Option Nat
  error : Option String
  sizeBytes : Nat
  readyAt : Option Nat
  deriving Repr, DecidableEq

/-- What a claim found. -/
inductive Claim where
  | ready
  | build
  | inProgress
  deriving Repr, DecidableEq

/-- The table and the clock of its database. -/
structure Catalog where
  now : Nat
  images : Table VmImage.key

namespace Catalog

variable (c : Catalog) (k : ImageKey)

/-! ## The operations -/

/-- The row a claim inserts. -/
def newImage (workflowId jobId : String) (lease : Nat) : VmImage where
  key := k
  workflowId := workflowId
  status := .building
  builtByJob := some jobId
  leasedUntil := some (c.now + lease)
  error := none
  sizeBytes := 0
  readyAt := none

/-- Whether a claim may take a row over. -/
def lapsed (r : VmImage) : Bool := r.status ≠ .ready && r.leasedUntil.all (· < c.now)

/-- The conflict branch of a claim. -/
def takeOver (jobId : String) (lease : Nat) : Table.Update VmImage.key where
  hits r := r.key = k && c.lapsed r
  set r := { r with status := .building, builtByJob := some jobId, error := none,
                    leasedUntil := some (c.now + lease) }
  key_set _ := rfl

/-- Whether the statement of a claim returns a row. -/
def takes : Bool := match c.images.find k with
  | none => true
  | some r => c.lapsed r

def statusOf : Option ImageStatus := (c.images.find k).map (·.status)

def claim (workflowId jobId : String) (lease : Nat) : Catalog × Claim :=
  (⟨c.now, c.images.upsert (c.newImage k workflowId jobId lease) (c.takeOver k jobId lease)⟩,
    if c.takes k then .build
    else match c.statusOf k with
      | some .ready => .ready
      | _ => .inProgress)

def renewal (lease : Nat) : Table.Update VmImage.key where
  hits r := r.key = k && r.status = .building
  set r := { r with leasedUntil := some (c.now + lease) }
  key_set _ := rfl

def renew (lease : Nat) : Catalog := ⟨c.now, c.images.update (c.renewal k lease)⟩

def readying (sizeBytes : Nat) : Table.Update VmImage.key where
  hits r := r.key = k
  set r := { r with status := .ready, readyAt := some c.now, leasedUntil := none, error := none,
                    sizeBytes := sizeBytes }
  key_set _ := rfl

def markReady (sizeBytes : Nat) : Catalog := ⟨c.now, c.images.update (c.readying k sizeBytes)⟩

def failing (error : String) : Table.Update VmImage.key where
  hits r := r.key = k && r.status ≠ .ready
  set r := { r with status := .failed, leasedUntil := none, error := some error }
  key_set _ := rfl

def markFailed (error : String) : Catalog := ⟨c.now, c.images.update (failing k error)⟩

def forget : Catalog := ⟨c.now, c.images.delete fun r => decide (r.key = k)⟩

/-! ## What they do to a row -/

variable {c k} {k' : ImageKey}

theorem find_claim {workflowId jobId : String} {lease : Nat} :
    (c.claim k workflowId jobId lease).1.images.find k' =
      if k = k' then some ((c.images.find k').elim (c.newImage k workflowId jobId lease)
        (c.takeOver k jobId lease).row) else c.images.find k' := by
  have hkey : ∀ r, (c.takeOver k jobId lease).hits r = true →
      r.key = (c.newImage k workflowId jobId lease).key := by
    intro r hr
    simp only [takeOver, Bool.and_eq_true, decide_eq_true_eq] at hr
    exact hr.1
  exact Table.find_upsert hkey k'

theorem find_forget : (c.forget k).images.find k' =
    if k = k' then none else c.images.find k' := Table.find_delete k k'

theorem takes_eq_false_iff : c.takes k = false ↔ ∃ r, c.images.find k = some r ∧
    (r.status = .ready ∨ ∃ t, r.leasedUntil = some t ∧ c.now ≤ t) := by
  unfold takes
  cases c.images.find k with
  | none => simp
  | some r =>
    cases ht : r.leasedUntil with
    | none => simp [lapsed, ht]
    | some t =>
      by_cases hs : r.status = .ready
      · simp [lapsed, ht, hs]
      · simp [lapsed, ht, hs]

theorem takes_congr {c' : Catalog} (hnow : c'.now = c.now)
    (hfind : c'.images.find k = c.images.find k) : c'.takes k = c.takes k := by
  unfold takes lapsed
  rw [hfind, hnow]

/-- A claim is answered `Build` when its statement returns a row. -/
theorem claim_build_iff {workflowId jobId : String} {lease : Nat} :
    (c.claim k workflowId jobId lease).2 = .build ↔ c.takes k = true := by
  simp only [claim]
  split_ifs with ht
  · simp [ht]
  · refine ⟨fun h => ?_, fun h => absurd h ht⟩
    split at h <;> cases h

/-- A claim that takes the row has it leased from now on. -/
theorem find_claim_self (workflowId jobId : String) (lease : Nat) (ht : c.takes k = true) :
    ∃ r, (c.claim k workflowId jobId lease).1.images.find k = some r ∧
      r.leasedUntil = some (c.now + lease) := by
  rw [find_claim, if_pos rfl]
  unfold takes at ht
  cases hf : c.images.find k with
  | none => exact ⟨_, rfl, rfl⟩
  | some r =>
    rw [hf] at ht
    have hhits : (c.takeOver k jobId lease).hits r = true := by
      simp only [takeOver, Table.key_of_find hf, decide_true, Bool.true_and]
      exact ht
    exact ⟨_, rfl, by rw [Option.elim_some, Table.Update.row_of_hits hhits]; rfl⟩

/-- A claim that takes nothing changes nothing. -/
theorem find_claim_other (workflowId jobId : String) (lease : Nat)
    (h : k = k' → c.takes k = false) :
    (c.claim k workflowId jobId lease).1.images.find k' = c.images.find k' := by
  rw [find_claim]
  split_ifs with hk
  · have ht := h hk
    subst hk
    unfold takes at ht
    cases hf : c.images.find k with
    | none =>
      rw [hf] at ht
      cases ht
    | some r =>
      rw [hf] at ht
      have hhits : (c.takeOver k jobId lease).hits r = false := by
        simp only [takeOver, Table.key_of_find hf, decide_true, Bool.true_and]
        exact ht
      rw [Option.elim_some, Table.Update.row_of_not_hits hhits]
  · rfl

/-- An update of one image leaves the others alone. -/
theorem find_update_other {u : Table.Update VmImage.key}
    (hu : ∀ r, u.hits r = true → r.key = k) (hk : k ≠ k') :
    (c.images.update u).find k' = c.images.find k' := by
  rw [Table.find_update]
  cases hf : c.images.find k' with
  | none => rfl
  | some r =>
    rw [Option.map_some, Table.Update.row_of_not_hits]
    refine Bool.eq_false_iff.mpr fun hhits => hk ?_
    rw [← hu r hhits, Table.key_of_find hf]

theorem key_of_renewal {lease : Nat} {r : VmImage} (h : (c.renewal k lease).hits r = true) :
    r.key = k ∧ r.status = .building := by
  simpa [renewal] using h

theorem key_of_readying {sizeBytes : Nat} {r : VmImage}
    (h : (c.readying k sizeBytes).hits r = true) : r.key = k := of_decide_eq_true h

theorem key_of_failing {error : String} {r : VmImage} (h : (failing k error).hits r = true) :
    r.key = k ∧ r.status ≠ .ready := by
  simpa [failing] using h

theorem find_renew_other {lease : Nat} (hk : k ≠ k') :
    (c.renew k lease).images.find k' = c.images.find k' :=
  find_update_other (fun _ hr => (key_of_renewal hr).1) hk

theorem find_markReady_other {sizeBytes : Nat} (hk : k ≠ k') :
    (c.markReady k sizeBytes).images.find k' = c.images.find k' :=
  find_update_other (fun _ hr => key_of_readying hr) hk

theorem find_markFailed_other {error : String} (hk : k ≠ k') :
    (c.markFailed k error).images.find k' = c.images.find k' :=
  find_update_other (fun _ hr => (key_of_failing hr).1) hk

/-- An image that is ready is not taken. -/
theorem takes_markReady {sizeBytes : Nat} {r : VmImage} (hf : c.images.find k = some r) :
    (c.markReady k sizeBytes).takes k = false := by
  refine takes_eq_false_iff.mpr ⟨(c.readying k sizeBytes).set r, ?_, Or.inl rfl⟩
  have hhits : (c.readying k sizeBytes).hits r = true := decide_eq_true (Table.key_of_find hf)
  rw [markReady, Table.find_update, hf, Option.map_some, Table.Update.row_of_hits hhits]

/-- A failure of an image that is not ready lets a claim take it. -/
theorem takes_markFailed {error : String} {r : VmImage} (hf : c.images.find k = some r)
    (hs : r.status ≠ .ready) : (c.markFailed k error).takes k = true := by
  have hhits : (failing k error).hits r = true := by simp [failing, Table.key_of_find hf, hs]
  rw [takes, markFailed, Table.find_update, hf, Option.map_some, Table.Update.row_of_hits hhits]
  rfl

theorem find_markFailed_ready {error : String} {r : VmImage} (hf : c.images.find k = some r)
    (hs : r.status = .ready) : (c.markFailed k error).images.find k = c.images.find k := by
  have hhits : (failing k error).hits r = false := by simp [failing, hs]
  rw [markFailed, Table.find_update, hf, Option.map_some, Table.Update.row_of_not_hits hhits]

/-- What is leased after an update that ends leases, was before. -/
theorem find_update_leased {u : Table.Update VmImage.key}
    (hu : ∀ r, (u.set r).leasedUntil = none) {r : VmImage} {t : Nat}
    (hf : (c.images.update u).find k = some r) (ht : r.leasedUntil = some t) :
    c.images.find k = some r := by
  rw [Table.find_update] at hf
  obtain ⟨r₀, hf₀, rfl⟩ := Option.map_eq_some_iff.mp hf
  cases hh : u.hits r₀ with
  | true =>
    rw [Table.Update.row_of_hits hh, hu] at ht
    cases ht
  | false => rw [Table.Update.row_of_not_hits hh, hf₀]

/-- A renewal that meets a row leases it from now on; one that meets none changes nothing. -/
theorem find_renew (c : Catalog) (k : ImageKey) (lease : Nat) :
    if c.images.affected (c.renewal k lease) = true
    then ∃ r, (c.renew k lease).images.find k = some r ∧ r.leasedUntil = some (c.now + lease)
    else ∀ k', (c.renew k lease).images.find k' = c.images.find k' := by
  split_ifs with ha
  · obtain ⟨r, hr, hhits⟩ := (c.images.affected_iff _).mp ha
    have hf := c.images.find_of_mem hr
    rw [(key_of_renewal hhits).1] at hf
    refine ⟨(c.renewal k lease).set r, ?_, rfl⟩
    simp only [renew, Table.find_update, hf, Option.map_some, Table.Update.row_of_hits hhits]
  · intro k'
    rw [renew, Table.find_update]
    cases hf : c.images.find k' with
    | none => rfl
    | some r =>
      rw [Option.map_some, Table.Update.row_of_not_hits]
      refine Bool.eq_false_iff.mpr fun hhits => ha ?_
      exact (c.images.affected_iff _).mpr ⟨r, Table.mem_of_find hf, hhits⟩

end Catalog

/-! ## The builders -/

/-- A job that was told to build an image. -/
structure Builder where
  job : String
  image : ImageKey
  /-- Until when the lease is good that its claim, or its last renewal that met a row, has set. -/
  leasedUntil : Nat
  /-- It has reported how the build ended. -/
  ended : Bool
  deriving Repr, DecidableEq

def Builder.key (b : Builder) : String × ImageKey := (b.job, b.image)

structure BuildWorld where
  db : Catalog
  builders : Table Builder.key

inductive BuildAct where
  | tick (d : Nat)
  | claim (job : String) (image : ImageKey) (workflowId : String)
  | renew (job : String) (image : ImageKey)
  | markReady (job : String) (image : ImageKey) (sizeBytes : Nat)
  | markFailed (job : String) (image : ImageKey) (error : String)
  | forget (image : ImageKey)

namespace BuildWorld

variable (lease : Nat) (w : BuildWorld)

/-- The job has been told to build the image. -/
def told (job : String) (image : ImageKey) : Bool := (w.builders.find (job, image)).isSome

/-- The job is told to build the image, for the first time or again. -/
def tell (job : String) (image : ImageKey) : Table Builder.key :=
  w.builders.upsert ⟨job, image, w.db.now + lease, false⟩
    ⟨fun b => b.key = (job, image),
      fun b => { b with leasedUntil := w.db.now + lease, ended := false }, fun _ => rfl⟩

/-- A renewal, for the job that makes it. -/
def extension (job : String) (image : ImageKey) : Table.Update Builder.key where
  hits b := b.key = (job, image)
  set b := { b with leasedUntil := w.db.now + lease }
  key_set _ := rfl

/-- The builders after a renewal, which counts when it meets a row. -/
def renewed (job : String) (image : ImageKey) : Table Builder.key :=
  if w.db.images.affected (w.db.renewal image lease)
  then w.builders.update (w.extension lease job image) else w.builders

def report (job : String) (image : ImageKey) : Table.Update Builder.key where
  hits b := b.key = (job, image)
  set b := { b with ended := true }
  key_set _ := rfl

/-- The builders after a report. -/
def reported (job : String) (image : ImageKey) : Table Builder.key :=
  w.builders.update (report job image)

def step : BuildAct → Option BuildWorld
  | .tick d => some ⟨⟨w.db.now + d, w.db.images⟩, w.builders⟩
  | .claim job image workflowId =>
    let answer := w.db.claim image workflowId job lease
    some ⟨answer.1, if answer.2 = .build then w.tell lease job image else w.builders⟩
  | .renew job image => if w.told job image then
      some ⟨w.db.renew image lease, w.renewed lease job image⟩ else none
  | .markReady job image size => if w.told job image then
      some ⟨w.db.markReady image size, w.reported job image⟩ else none
  | .markFailed job image error => if w.told job image then
      some ⟨w.db.markFailed image error, w.reported job image⟩ else none
  | .forget image => some ⟨w.db.forget image, w.builders⟩

/-- An empty catalog. -/
def start (now : Nat) : BuildWorld := ⟨⟨now, .empty⟩, .empty⟩

end BuildWorld

/-- `BUILD_LEASE`. -/
def buildLease : Nat := 30 * 60

/-- The jobs that build images, with one length for all leases. -/
def buildMachine (lease : Nat) : Machine BuildWorld BuildAct where
  init w := ∃ now, w = .start now
  step := BuildWorld.step lease

namespace BuildWorld

/-- The job still builds the image: it has not reported, and its lease has not run out. -/
def Builds (w : BuildWorld) (b : Builder) : Prop :=
  b ∈ w.builders.rows ∧ b.ended = false ∧ w.db.now ≤ b.leasedUntil

/-- Whoever claims an image next and is told to build it, no other job is building it. -/
def Exclusive (lease : Nat) (w : BuildWorld) : Prop := ∀ image workflowId job,
  (w.db.claim image workflowId job lease).2 = .build →
    ∀ b, w.Builds b → b.image = image → b.job = job

/-- A failure is reported on an image that is ready, or that no other job is building; an image is
forgotten when no job is building it. -/
def Spares (w : BuildWorld) : BuildAct → Prop
  | .markFailed job image _ => w.db.statusOf image = some .ready ∨
      ∀ b, w.Builds b → b.image = image → b.job = job
  | .forget image => ∀ b, w.Builds b → b.image ≠ image
  | _ => True

variable {lease : Nat} {w w' : BuildWorld} {a : BuildAct} {job : String} {image : ImageKey}

theorem mem_tell {b : Builder} : b ∈ (w.tell lease job image).rows ↔
    (b ∈ w.builders.rows ∧ b.key ≠ (job, image)) ∨ b = ⟨job, image, w.db.now + lease, false⟩ := by
  refine (Table.mem_upsert fun r hr => of_decide_eq_true hr).trans ?_
  constructor
  · rintro (⟨b₀, hb₀, rfl⟩ | ⟨-, rfl⟩)
    · by_cases hk : b₀.key = (job, image)
      · obtain ⟨rfl, rfl⟩ := Prod.mk.inj hk
        rw [Table.Update.row_of_hits (decide_eq_true hk)]
        exact Or.inr rfl
      · rw [Table.Update.row_of_not_hits (decide_eq_false hk)]
        exact Or.inl ⟨hb₀, hk⟩
    · exact Or.inr rfl
  · rintro (⟨hb, hk⟩ | rfl)
    · exact Or.inl ⟨b, hb, Table.Update.row_of_not_hits (decide_eq_false hk)⟩
    · rcases hf : w.builders.find (job, image) with _ | b₀
      · exact Or.inr ⟨hf, rfl⟩
      · have hk := Table.key_of_find hf
        obtain ⟨rfl, rfl⟩ := Prod.mk.inj hk
        exact Or.inl ⟨b₀, Table.mem_of_find hf, Table.Update.row_of_hits (decide_eq_true hk)⟩

/-- A renewal changes nothing but the lease, and none but that of its job. -/
theorem mem_renewed {b' : Builder} (h : b' ∈ (w.renewed lease job image).rows) :
    b' ∈ w.builders.rows ∨ (w.db.images.affected (w.db.renewal image lease) = true ∧
      ∃ b ∈ w.builders.rows, b.key = (job, image) ∧
        b' = { b with leasedUntil := w.db.now + lease }) := by
  unfold renewed at h
  split_ifs at h with ha
  · obtain ⟨b, hb, rfl⟩ := (Table.mem_update _ _).mp h
    by_cases hk : b.key = (job, image)
    · rw [Table.Update.row_of_hits (decide_eq_true hk)]
      exact Or.inr ⟨ha, b, hb, hk, rfl⟩
    · rw [Table.Update.row_of_not_hits (decide_eq_false hk)]
      exact Or.inl hb
  · exact Or.inl h

/-- A report changes no lease. -/
theorem mem_reported {b' : Builder} (h : b' ∈ (w.reported job image).rows) :
    b' ∈ w.builders.rows ∨
      ∃ b ∈ w.builders.rows, b.key = (job, image) ∧ b' = { b with ended := true } := by
  obtain ⟨b, hb, rfl⟩ := (Table.mem_update _ _).mp h
  by_cases hk : b.key = (job, image)
  · rw [Table.Update.row_of_hits (decide_eq_true hk)]
    exact Or.inr ⟨b, hb, hk, rfl⟩
  · rw [Table.Update.row_of_not_hits (decide_eq_false hk)]
    exact Or.inl hb

/-- The others build on. -/
theorem mem_reported_other {b : Builder} (hb : b ∈ w.builders.rows) (hk : b.key ≠ (job, image)) :
    b ∈ (w.reported job image).rows :=
  (Table.mem_update _ _).mpr ⟨b, hb, Table.Update.row_of_not_hits (decide_eq_false hk)⟩

/-! ## Leases -/

/-- The lease of a row lasts as long as that of every job that was told to build the image, and no
lease lasts longer than one made now. -/
structure Leased (lease : Nat) (w : BuildWorld) : Prop where
  rows : ∀ k r t, w.db.images.find k = some r → r.leasedUntil = some t →
    ∀ b ∈ w.builders.rows, b.image = k → b.leasedUntil ≤ t
  builders : ∀ b ∈ w.builders.rows, b.leasedUntil ≤ w.db.now + lease

theorem Leased.start (now : Nat) : (BuildWorld.start now).Leased lease := ⟨nofun, nofun⟩

/-- What a step can be. -/
inductive Moves (lease : Nat) (w : BuildWorld) : BuildAct → BuildWorld → Prop
  | tick (d : Nat) : Moves lease w (.tick d) ⟨⟨w.db.now + d, w.db.images⟩, w.builders⟩
  | build (job : String) (image : ImageKey) (wf : String) (h : w.db.takes image = true) :
      Moves lease w (.claim job image wf)
        ⟨(w.db.claim image wf job lease).1, w.tell lease job image⟩
  | noBuild (job : String) (image : ImageKey) (wf : String) (h : w.db.takes image = false) :
      Moves lease w (.claim job image wf) ⟨(w.db.claim image wf job lease).1, w.builders⟩
  | renew (job : String) (image : ImageKey) : Moves lease w (.renew job image)
      ⟨w.db.renew image lease, w.renewed lease job image⟩
  | markReady (job : String) (image : ImageKey) (size : Nat) :
      Moves lease w (.markReady job image size) ⟨w.db.markReady image size, w.reported job image⟩
  | markFailed (job : String) (image : ImageKey) (error : String) :
      Moves lease w (.markFailed job image error)
        ⟨w.db.markFailed image error, w.reported job image⟩
  | forget (image : ImageKey) : Moves lease w (.forget image) ⟨w.db.forget image, w.builders⟩

theorem step_cases (h : w.step lease a = some w') : w.Moves lease a w' := by
  cases a with
  | tick d =>
    cases h
    exact .tick d
  | claim job image wf =>
    cases h
    cases ht : w.db.takes image with
    | true =>
      rw [if_pos (Catalog.claim_build_iff.mpr ht)]
      exact .build job image wf ht
    | false =>
      rw [if_neg fun hb => Bool.false_ne_true (ht.symm.trans (Catalog.claim_build_iff.mp hb))]
      exact .noBuild job image wf ht
  | renew job image =>
    simp only [step] at h
    split_ifs at h
    cases h
    exact .renew job image
  | markReady job image size =>
    simp only [step] at h
    split_ifs at h
    cases h
    exact .markReady job image size
  | markFailed job image error =>
    simp only [step] at h
    split_ifs at h
    cases h
    exact .markFailed job image error
  | forget image =>
    cases h
    exact .forget image

/-- What is leased anew is leased from now on; what is not is outlasted by its row as before. -/
theorem Leased.of_rows (h : w.Leased lease) (hnow : w'.db.now = w.db.now)
    (hb : ∀ b' ∈ w'.builders.rows, b'.leasedUntil = w.db.now + lease ∨
      ∃ b ∈ w.builders.rows, b.image = b'.image ∧ b'.leasedUntil = b.leasedUntil)
    (hr : ∀ k r t, w'.db.images.find k = some r → r.leasedUntil = some t →
      t = w.db.now + lease ∨ ((∃ r₀, w.db.images.find k = some r₀ ∧ r₀.leasedUntil = some t) ∧
        ∀ b' ∈ w'.builders.rows, b'.image = k →
          ∃ b ∈ w.builders.rows, b.image = k ∧ b'.leasedUntil = b.leasedUntil)) :
    w'.Leased lease := by
  have hmax : ∀ b' ∈ w'.builders.rows, b'.leasedUntil ≤ w.db.now + lease := by
    intro b' hb'
    rcases hb b' hb' with he | ⟨b, hmem, -, he⟩
    · exact Nat.le_of_eq he
    · rw [he]
      exact h.builders b hmem
  refine ⟨fun k r t hf ht b' hb' hk => ?_, fun b' hb' => ?_⟩
  · rcases hr k r t hf ht with rfl | ⟨⟨r₀, hf₀, ht₀⟩, hold⟩
    · exact hmax b' hb'
    · obtain ⟨b, hmem, hbk, he⟩ := hold b' hb' hk
      rw [he]
      exact h.rows k r₀ t hf₀ ht₀ b hmem hbk
  · rw [hnow]
    exact hmax b' hb'

/-- The jobs after a report are those before, with the leases they had. -/
theorem lease_of_reported {b' : Builder} (h : b' ∈ (w.reported job image).rows) :
    ∃ b ∈ w.builders.rows, b.image = b'.image ∧ b'.leasedUntil = b.leasedUntil := by
  rcases mem_reported h with hb | ⟨b, hb, -, rfl⟩
  · exact ⟨b', hb, rfl, rfl⟩
  · exact ⟨b, hb, rfl, rfl⟩

/-- A claim that takes a row leases it for the job it tells to build. -/
theorem Leased.build (h : w.Leased lease) (wf : String) (ht : w.db.takes image = true) :
    (⟨(w.db.claim image wf job lease).1, w.tell lease job image⟩ : BuildWorld).Leased lease := by
  refine h.of_rows rfl (fun b' hb' => ?_) fun k r t hf hl => ?_
  · rcases mem_tell.mp hb' with ⟨hb, -⟩ | rfl
    · exact Or.inr ⟨b', hb, rfl, rfl⟩
    · exact Or.inl rfl
  · by_cases hk : image = k
    · subst hk
      obtain ⟨r', hf', hl'⟩ := Catalog.find_claim_self wf job lease ht
      cases hf.symm.trans hf'
      exact Or.inl (Option.some.inj (hl.symm.trans hl'))
    · refine Or.inr ⟨⟨r, ?_, hl⟩, fun b' hb' hbk => ?_⟩
      · exact (Catalog.find_claim_other wf job lease fun he => absurd he hk).symm.trans hf
      · rcases mem_tell.mp hb' with ⟨hb, -⟩ | rfl
        · exact ⟨b', hb, hbk, rfl⟩
        · exact absurd hbk hk

/-- A renewal that meets a row leases it and its job; one that meets none leases nothing. -/
theorem Leased.renew (h : w.Leased lease) (job : String) (image : ImageKey) :
    (⟨w.db.renew image lease, w.renewed lease job image⟩ : BuildWorld).Leased lease := by
  have hfind := Catalog.find_renew w.db image lease
  refine h.of_rows rfl (fun b' hb' => ?_) fun k r t hf hl => ?_
  · rcases mem_renewed hb' with hb | ⟨-, b, hb, -, rfl⟩
    · exact Or.inr ⟨b', hb, rfl, rfl⟩
    · exact Or.inl rfl
  · split_ifs at hfind with ha
    · by_cases hk : image = k
      · subst hk
        obtain ⟨r', hf', hl'⟩ := hfind
        cases hf.symm.trans hf'
        exact Or.inl (Option.some.inj (hl.symm.trans hl'))
      · refine Or.inr ⟨⟨r, (Catalog.find_renew_other hk).symm.trans hf, hl⟩, fun b' hb' hbk => ?_⟩
        rcases mem_renewed hb' with hb | ⟨-, b, hb, hkey, rfl⟩
        · exact ⟨b', hb, hbk, rfl⟩
        · exact absurd ((Prod.mk.inj hkey).2.symm.trans hbk) hk
    · refine Or.inr ⟨⟨r, (hfind k).symm.trans hf, hl⟩, fun b' hb' hbk => ?_⟩
      rcases mem_renewed hb' with hb | ⟨ha', -⟩
      · exact ⟨b', hb, hbk, rfl⟩
      · exact absurd ha' ha

/-- Where no row is leased anew, and the jobs keep their leases, rows outlast them as before. -/
theorem Leased.of_find (h : w.Leased lease) (hnow : w'.db.now = w.db.now)
    (hb : ∀ b' ∈ w'.builders.rows,
      ∃ b ∈ w.builders.rows, b.image = b'.image ∧ b'.leasedUntil = b.leasedUntil)
    (hr : ∀ k r t, w'.db.images.find k = some r → r.leasedUntil = some t →
      w.db.images.find k = some r) : w'.Leased lease := by
  refine h.of_rows hnow (fun b' hb' => Or.inr (hb b' hb')) fun k r t hf hl => ?_
  refine Or.inr ⟨⟨r, hr k r t hf hl, hl⟩, fun b' hb' hk => ?_⟩
  obtain ⟨b, hmem, hi, he⟩ := hb b' hb'
  exact ⟨b, hmem, hi.trans hk, he⟩

theorem Leased.step (h : w.Leased lease) (hm : w.Moves lease a w') : w'.Leased lease := by
  cases hm with
  | tick d =>
    exact ⟨h.rows, fun b hb => Nat.le_trans (h.builders b hb) (by simp only; omega)⟩
  | build job image wf ht => exact h.build wf ht
  | noBuild job image wf ht =>
    refine h.of_find rfl (fun b' hb' => ⟨b', hb', rfl, rfl⟩) fun k r t hf hl => ?_
    exact (Catalog.find_claim_other wf job lease fun _ => ht).symm.trans hf
  | renew job image => exact h.renew job image
  | markReady job image size =>
    exact h.of_find rfl (fun b' => lease_of_reported) fun k r t =>
      Catalog.find_update_leased fun _ => rfl
  | markFailed job image error =>
    exact h.of_find rfl (fun b' => lease_of_reported) fun k r t =>
      Catalog.find_update_leased fun _ => rfl
  | forget image =>
    refine h.of_find rfl (fun b' hb' => ⟨b', hb', rfl, rfl⟩) fun k r t hf hl => ?_
    change (w.db.forget image).images.find k = some r at hf
    rw [Catalog.find_forget] at hf
    split_ifs at hf
    exact hf

/-! ## One builder -/

/-- No claim takes the row of an image that somebody is building. -/
def Held (w : BuildWorld) : Prop := ∀ b, w.Builds b → w.db.takes b.image = false

theorem exclusive_iff_held : w.Exclusive lease ↔ w.Held := by
  constructor
  · intro h b hb
    refine Bool.eq_false_iff.mpr fun ht => ?_
    have hjob := h b.image "" (b.job ++ "'") (Catalog.claim_build_iff.mpr ht) b hb rfl
    have hlen := congrArg String.length hjob
    simp at hlen
  · rintro h image wf job hbuild b hb rfl
    have ht := Catalog.claim_build_iff.mp hbuild
    rw [h b hb] at ht
    cases ht

/-- What holds a row against a claim. -/
theorem Held.row (h : w.Held) {b : Builder} (hb : w.Builds b) :
    ∃ r, w.db.images.find b.image = some r ∧
      (r.status = .ready ∨ ∃ t, r.leasedUntil = some t ∧ w.db.now ≤ t) :=
  Catalog.takes_eq_false_iff.mp (h b hb)

theorem Held.takes_of_find (h : w.Held) {b : Builder} (hb : w.Builds b) {c : Catalog}
    (hnow : c.now = w.db.now) (hf : c.images.find b.image = w.db.images.find b.image) :
    c.takes b.image = false := (Catalog.takes_congr hnow hf).trans (h b hb)

/-- A row that is leased from now on is not taken. -/
theorem takes_of_leased {c : Catalog} {k : ImageKey} {r : VmImage} (hf : c.images.find k = some r)
    (hl : r.leasedUntil = some (c.now + lease)) : c.takes k = false :=
  Catalog.takes_eq_false_iff.mpr ⟨r, hf, Or.inr ⟨_, hl, Nat.le_add_right _ _⟩⟩

/-- Who builds after a report built before, and is not who reported. -/
theorem builds_of_reported {c : Catalog} {b : Builder}
    (h : (⟨c, w.reported job image⟩ : BuildWorld).Builds b) (hnow : c.now = w.db.now) :
    w.Builds b ∧ b.key ≠ (job, image) := by
  obtain ⟨hmem, hended, hle⟩ := h
  obtain ⟨b₀, hb₀, rfl⟩ := (Table.mem_update _ _).mp hmem
  by_cases hk : b₀.key = (job, image)
  · rw [Table.Update.row_of_hits (decide_eq_true hk)] at hended
    cases hended
  · rw [Table.Update.row_of_not_hits (decide_eq_false hk)] at hended hle ⊢
    exact ⟨⟨hb₀, hended, hnow ▸ hle⟩, hk⟩

/-- A failure leaves one builder when the image is ready, or is built by nobody else. -/
theorem Held.markFailed_iff (h : w.Held) {error : String} :
    (⟨w.db.markFailed image error, w.reported job image⟩ : BuildWorld).Held ↔
      w.Spares (.markFailed job image error) := by
  constructor
  · intro h'
    by_cases hready : w.db.statusOf image = some .ready
    · exact Or.inl hready
    refine Or.inr fun b hb hbi => ?_
    subst hbi
    by_contra hne
    obtain ⟨r, hf, -⟩ := h.row hb
    have hs : r.status ≠ .ready := fun hs => hready (by rw [Catalog.statusOf, hf, Option.map_some, hs])
    have hkey : b.key ≠ (job, b.image) := fun he => hne (Prod.mk.inj he).1
    have ht := h' b ⟨mem_reported_other hb.1 hkey, hb.2⟩
    rw [Catalog.takes_markFailed hf hs] at ht
    cases ht
  · intro hsp b hb
    obtain ⟨hb₀, hother⟩ := builds_of_reported hb rfl
    by_cases hk : image = b.image
    · obtain ⟨r, hf, -⟩ := h.row hb₀
      subst hk
      have hs : r.status = .ready := by
        rcases hsp with hready | hjob
        · rw [Catalog.statusOf, hf] at hready
          exact Option.some.inj hready
        · exact absurd (show b.key = (job, b.image) by rw [← hjob b hb₀ rfl]; rfl) hother
      exact h.takes_of_find hb₀ rfl (Catalog.find_markFailed_ready hf hs)
    · exact h.takes_of_find hb₀ rfl (Catalog.find_markFailed_other hk)

/-- Time takes no row before the lease of its builder is over. -/
theorem Held.tick (h : w.Held) (hl : w.Leased lease) (d : Nat) :
    (⟨⟨w.db.now + d, w.db.images⟩, w.builders⟩ : BuildWorld).Held := by
  rintro b ⟨hmem, hended, hle⟩
  have hle' : w.db.now + d ≤ b.leasedUntil := hle
  obtain ⟨r, hf, hr⟩ := h.row ⟨hmem, hended, by omega⟩
  refine Catalog.takes_eq_false_iff.mpr ⟨r, hf, hr.imp_right ?_⟩
  rintro ⟨t, ht, -⟩
  exact ⟨t, ht, Nat.le_trans hle (hl.rows _ r t hf ht b hmem rfl)⟩

theorem Held.build (h : w.Held) (wf : String) (ht : w.db.takes image = true) :
    (⟨(w.db.claim image wf job lease).1, w.tell lease job image⟩ : BuildWorld).Held := by
  rintro b ⟨hmem, hended, hle⟩
  obtain ⟨r, hf, hr⟩ := Catalog.find_claim_self wf job lease ht
  by_cases hk : image = b.image
  · rw [← hk]
    exact takes_of_leased hf hr
  · rcases mem_tell.mp hmem with ⟨hmem, -⟩ | rfl
    · exact h.takes_of_find ⟨hmem, hended, hle⟩ rfl
        (Catalog.find_claim_other wf job lease fun he => absurd he hk)
    · exact absurd rfl hk

theorem Held.renew (h : w.Held) (job : String) (image : ImageKey) :
    (⟨w.db.renew image lease, w.renewed lease job image⟩ : BuildWorld).Held := by
  rintro b ⟨hmem, hended, hle⟩
  have hfind := Catalog.find_renew w.db image lease
  split_ifs at hfind with ha
  · obtain ⟨r, hf, hr⟩ := hfind
    by_cases hk : image = b.image
    · rw [← hk]
      exact takes_of_leased hf hr
    · rcases mem_renewed hmem with hmem | ⟨-, b₀, -, hkey, rfl⟩
      · exact h.takes_of_find ⟨hmem, hended, hle⟩ rfl (Catalog.find_renew_other hk)
      · exact absurd (Prod.mk.inj hkey).2.symm hk
  · rcases mem_renewed hmem with hmem | ⟨ha', -⟩
    · exact h.takes_of_find ⟨hmem, hended, hle⟩ rfl (hfind b.image)
    · exact absurd ha' ha

theorem Held.markReady (h : w.Held) (job : String) (image : ImageKey) (sizeBytes : Nat) :
    (⟨w.db.markReady image sizeBytes, w.reported job image⟩ : BuildWorld).Held := by
  intro b hb
  obtain ⟨hb₀, -⟩ := builds_of_reported hb rfl
  by_cases hk : image = b.image
  · obtain ⟨r, hf, -⟩ := h.row hb₀
    subst hk
    exact Catalog.takes_markReady hf
  · exact h.takes_of_find hb₀ rfl (Catalog.find_markReady_other hk)

/-- What is forgotten leaves one builder when nobody builds it. -/
theorem Held.forget_iff (h : w.Held) :
    (⟨w.db.forget image, w.builders⟩ : BuildWorld).Held ↔ w.Spares (.forget image) := by
  constructor
  · rintro h' b hb rfl
    have ht := h' b hb
    have hgone : (w.db.forget b.image).takes b.image = true := by
      rw [Catalog.takes, Catalog.find_forget, if_pos rfl]
    rw [hgone] at ht
    cases ht
  · intro hsp b hb
    have hk : image ≠ b.image := fun he => hsp b hb he.symm
    exact h.takes_of_find hb rfl (Catalog.find_forget.trans (if_neg hk))

/-- **A step leaves one builder** exactly when it spares the others. -/
theorem Held.step (h : w.Held) (hl : w.Leased lease) (hm : w.Moves lease a w') :
    w'.Held ↔ w.Spares a := by
  cases hm with
  | tick d => exact iff_of_true (h.tick hl d) trivial
  | build job image wf ht => exact iff_of_true (h.build wf ht) trivial
  | noBuild job image wf ht =>
    refine iff_of_true (fun b hb => ?_) trivial
    exact h.takes_of_find hb rfl (Catalog.find_claim_other wf job lease fun _ => ht)
  | renew job image => exact iff_of_true (h.renew job image) trivial
  | markReady job image size => exact iff_of_true (h.markReady job image size) trivial
  | markFailed job image error => exact h.markFailed_iff
  | forget image => exact h.forget_iff

theorem leased_of_reachable (h : (buildMachine lease).Reachable Machine.anyStep w) :
    w.Leased lease := by
  refine h.inv (Leased lease) ?_ fun w a w' _ hl _ hs => hl.step (step_cases hs)
  rintro _ ⟨now, rfl⟩
  exact Leased.start now

end BuildWorld

/-- **In every state of a run a claim is answered `Build` next to no other job, exactly when each
failure and each `forget` of the run leaves no other job with a live lease.** -/
theorem exclusive_iff (lease now : Nat) (as : List BuildAct) :
    (buildMachine lease).Throughout (fun _ _ w' => w'.Exclusive lease) (.start now) as ↔
      (buildMachine lease).Throughout (fun w a _ => w.Spares a) (.start now) as := by
  simp only [BuildWorld.exclusive_iff_held]
  refine Machine.throughout_inv_iff (Machine.Reachable.init ⟨now, rfl⟩) (fun b hb => ?_)
    fun w a w' hr hI hs => hI.step (BuildWorld.leased_of_reachable hr) (BuildWorld.step_cases hs)
  cases hb.1

/-! ## A late failure -/

/-- The lease of one builder lapses, another job takes the build over, and the first reports its
failure. -/
def takenOver : List BuildAct :=
  [.claim "A" ⟨"img", "hd"⟩ "wf", .tick 1801, .claim "B" ⟨"img", "hd"⟩ "wf",
    .markFailed "A" ⟨"img", "hd"⟩ "timed out"]

/-- The row is free for a third job, while the second builds under a lease that has not run out. -/
theorem late_failure : ¬ ∀ (lease now : Nat) (as : List BuildAct),
    (buildMachine lease).Throughout (fun _ _ w' => w'.Exclusive lease) (.start now) as := by
  intro h
  have hrun : ((buildMachine buildLease).run (.start 0) takenOver).map (fun w =>
      ((w.db.claim ⟨"img", "hd"⟩ "wf" "C" buildLease).2, w.db.now, w.builders.rows)) =
      some (.build, 1801, [⟨"B", ⟨"img", "hd"⟩, 3601, false⟩, ⟨"A", ⟨"img", "hd"⟩, 1800, true⟩]) := by
    decide
  obtain ⟨w, hw, he⟩ := Option.map_eq_some_iff.mp hrun
  simp only [Prod.mk.injEq] at he
  obtain ⟨hbuild, hnow, hrows⟩ := he
  have hstart : (BuildWorld.start 0).Exclusive buildLease :=
    BuildWorld.exclusive_iff_held.mpr fun b hb => by cases hb.1
  have hlast := (h buildLease 0 takenOver).last hstart hw
  have hB : w.Builds ⟨"B", ⟨"img", "hd"⟩, 3601, false⟩ := by
    refine ⟨?_, rfl, ?_⟩
    · rw [hrows]
      exact List.mem_cons_self
    · rw [hnow]
      decide
  exact absurd (hlast _ _ _ hbuild _ hB rfl) (by decide)

end HeyoCi
