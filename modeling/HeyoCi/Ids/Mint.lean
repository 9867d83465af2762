import Mathlib.Algebra.Group.Nat.Defs
import Mathlib.Data.List.Nodup
import Mathlib.Logic.Function.Basic
import HeyoCi.Lib.Words

/-!
# Minted ids

An id is made of the milliseconds of a clock and of a counter of the process that mints it.

* `hexChars`: a number as `{:0wx}` prints it; `hexChars_inj`;
* `newId`: `new_id`; **`newId_inj`**: what an id says;
* `MintCall`, `numbered`, `mintedIds`: the calls of any number of processes, in the order in which
  they take their numbers;
* **`nodup_mintedIds_iff`**: where no id is minted twice;
* `twins_collide`: two processes that mint one id.
-/

namespace HeyoCi

/-! ## Hexadecimal digits -/

/-- A number in lower case hexadecimal, with zeros before it up to a width. -/
def hexChars (width n : Nat) : List Char :=
  List.replicate (width - (Nat.toDigits 16 n).length) '0' ++ Nat.toDigits 16 n

/-- The value of a digit. -/
def hexDigit (c : Char) : Nat := if c.isDigit then c.toNat - '0'.toNat else c.toNat - 'a'.toNat + 10

def hexValue (cs : List Char) : Nat := cs.foldl (fun n c => 16 * n + hexDigit c) 0

theorem hexDigit_digitChar {d : Nat} (hd : d < 16) : hexDigit d.digitChar = d := by
  have hall : ∀ d : Fin 16, hexDigit (d : Nat).digitChar = d := by decide
  exact hall ⟨d, hd⟩

theorem hexValue_concat (cs : List Char) (c : Char) :
    hexValue (cs ++ [c]) = 16 * hexValue cs + hexDigit c := by
  rw [hexValue, List.foldl_append]
  rfl

theorem hexValue_toDigits (n : Nat) : hexValue (Nat.toDigits 16 n) = n := by
  induction n using Nat.strongRecOn with
  | ind n ih =>
    rw [Nat.toDigits_eq_if (by omega)]
    split_ifs with hn
    · have hdigit := hexDigit_digitChar hn
      rw [← List.nil_append [n.digitChar], hexValue_concat, hdigit]
      change 16 * 0 + n = n
      omega
    · rw [hexValue_concat, ih (n / 16) (by omega), hexDigit_digitChar (Nat.mod_lt n (by omega))]
      omega

theorem hexValue_hexChars (width n : Nat) : hexValue (hexChars width n) = n := by
  have hzeros : ∀ k, (List.replicate k '0').foldl (fun n c => 16 * n + hexDigit c) 0 = 0 := by
    intro k
    induction k with
    | zero => rfl
    | succ k ih =>
      rw [List.replicate_succ, List.foldl_cons]
      exact ih
  rw [hexValue, hexChars, List.foldl_append, hzeros]
  exact hexValue_toDigits n

theorem hexChars_inj {width m n : Nat} (h : hexChars width m = hexChars width n) : m = n := by
  rw [← hexValue_hexChars width m, h, hexValue_hexChars]

/-- A letter of the ids beside the dash. -/
def isHexDigit (c : Char) : Bool := c ∈ ['0', '1', '2', '3', '4', '5', '6', '7', '8', '9', 'a', 'b',
  'c', 'd', 'e', 'f']

theorem isHexDigit_toDigits {n : Nat} {c : Char} (h : c ∈ Nat.toDigits 16 n) :
    isHexDigit c = true := by
  have hall : ∀ d : Fin 16, isHexDigit (d : Nat).digitChar = true := by decide
  induction n using Nat.strongRecOn with
  | ind n ih =>
    rw [Nat.toDigits_eq_if (by omega)] at h
    split_ifs at h with hn
    · obtain rfl := List.mem_singleton.mp h
      exact hall ⟨n, hn⟩
    · rcases List.mem_append.mp h with h | h
      · exact ih (n / 16) (by omega) h
      · obtain rfl := List.mem_singleton.mp h
        exact hall ⟨n % 16, Nat.mod_lt n (by omega)⟩

theorem isHexDigit_hexChars {width n : Nat} {c : Char} (h : c ∈ hexChars width n) :
    isHexDigit c = true := by
  rcases List.mem_append.mp h with h | h
  · obtain rfl := List.eq_of_mem_replicate h
    rfl
  · exact isHexDigit_toDigits h

/-! ## Ids -/

/-- `new_id`, by the milliseconds that were read and the number that was taken. -/
def newId (ms seq : Nat) : String :=
  String.ofList (hexChars 12 ms ++ '-' :: hexChars 8 (seq % 2 ^ 32))

/-- **An id says when it was minted, and its number up to 32 bits.** -/
theorem newId_inj {ms ms' seq seq' : Nat} :
    newId ms seq = newId ms' seq' ↔ ms = ms' ∧ seq % 2 ^ 32 = seq' % 2 ^ 32 := by
  constructor
  · intro h
    have hdash : ∀ width n, '-' ∉ hexChars width n := fun width n hmem =>
      absurd (isHexDigit_hexChars hmem) (by decide)
    rw [newId, newId, String.ofList_inj] at h
    obtain ⟨hms, hseq⟩ := Words.split_inj h (hdash 12 ms) (hdash 12 ms')
    exact ⟨hexChars_inj hms, hexChars_inj hseq⟩
  · rintro ⟨rfl, hseq⟩
    rw [newId, newId, hseq]

/-! ## Processes -/

/-- A call of `new_id` in one of the processes, with the clock it reads. -/
structure MintCall where
  process : Nat
  ms : Nat
  deriving Repr, DecidableEq

/-- The calls with the numbers they take, the processes having taken some before. -/
def numbered : (Nat → Nat) → List MintCall → List (MintCall × Nat)
  | _, [] => []
  | seq, c :: calls =>
    (c, seq c.process) :: numbered (Function.update seq c.process (seq c.process + 1)) calls

/-- The ids of the calls of processes that start at zero. -/
def mintedIds (calls : List MintCall) : List String :=
  (numbered (fun _ => 0) calls).map fun cn => newId cn.1.ms cn.2

/-- No process mints more ids than its counter shows. -/
def FewCalls (calls : List MintCall) : Prop :=
  ∀ p, calls.countP (fun c => c.process = p) < 2 ^ 32

/-- The clock of a process does not go back. -/
def ClocksRise (calls : List MintCall) : Prop :=
  calls.Pairwise fun c c' => c.process = c'.process → c.ms ≤ c'.ms

/-- Two processes do not mint their ids of one number in one millisecond. -/
def NoTwins (calls : List MintCall) : Prop :=
  (numbered (fun _ => 0) calls).Pairwise fun cn cn' =>
    cn.1.process ≠ cn'.1.process → cn.1.ms = cn'.1.ms → cn.2 ≠ cn'.2

instance (calls : List MintCall) : Decidable (NoTwins calls) := by unfold NoTwins; infer_instance

theorem number_of_mem {seq : Nat → Nat} {calls : List MintCall} {cn : MintCall × Nat}
    (h : cn ∈ numbered seq calls) : seq cn.1.process ≤ cn.2 ∧
      cn.2 < seq cn.1.process + calls.countP (fun c => c.process = cn.1.process) := by
  induction calls generalizing seq with
  | nil => exact absurd h List.not_mem_nil
  | cons c calls ih =>
    rcases List.mem_cons.mp h with rfl | h
    · simp
    · obtain ⟨hle, hlt⟩ := ih h
      by_cases hp : cn.1.process = c.process
      · rw [hp, Function.update_self] at hle hlt
        rw [hp, List.countP_cons_of_pos (by simp)]
        omega
      · rw [Function.update_of_ne hp] at hle hlt
        rw [List.countP_cons_of_neg (by simp [Ne.symm hp])]
        exact ⟨hle, hlt⟩

/-- A process never takes a number twice. -/
theorem numbers_rise (seq : Nat → Nat) (calls : List MintCall) :
    (numbered seq calls).Pairwise fun cn cn' => cn.1.process = cn'.1.process → cn.2 < cn'.2 := by
  induction calls generalizing seq with
  | nil => exact List.Pairwise.nil
  | cons c calls ih =>
    refine List.pairwise_cons.mpr ⟨fun cn hcn hp => ?_, ih _⟩
    have hle := (number_of_mem hcn).1
    simp only at hp
    rw [← hp, Function.update_self] at hle
    simp only
    omega

/-- **No id is minted twice if and only if no two processes mint their ids of one number in one
millisecond.** -/
theorem nodup_mintedIds_iff (calls : List MintCall) (hfew : FewCalls calls) :
    (mintedIds calls).Nodup ↔ NoTwins calls := by
  have hsmall : ∀ cn ∈ numbered (fun _ => 0) calls, cn.2 % 2 ^ 32 = cn.2 := by
    intro cn hcn
    have hlt := (number_of_mem hcn).2
    rw [Nat.zero_add] at hlt
    exact Nat.mod_eq_of_lt (Nat.lt_trans hlt (hfew cn.1.process))
  rw [mintedIds, List.Nodup, List.pairwise_map, NoTwins]
  constructor
  · intro hids
    refine hids.imp_of_mem fun {cn cn'} hcn hcn' hne _ hms hseq => hne ?_
    rw [newId_inj, hseq]
    exact ⟨hms, rfl⟩
  · intro htwins
    refine (htwins.and (numbers_rise _ calls)).imp_of_mem fun {cn cn'} hcn hcn' hboth heq => ?_
    obtain ⟨hms, hseq⟩ := newId_inj.mp heq
    rw [hsmall cn hcn, hsmall cn' hcn'] at hseq
    by_cases hp : cn.1.process = cn'.1.process
    · exact absurd (hboth.2 hp) (by omega)
    · exact hboth.1 hp hms hseq

theorem fewCalls_of_length {calls : List MintCall} (h : calls.length < 2 ^ 32) : FewCalls calls :=
  fun _ => Nat.lt_of_le_of_lt List.countP_le_length h

/-- Two processes whose ids are all different. -/
theorem apart_minted : (mintedIds [⟨0, 1000⟩, ⟨1, 1001⟩, ⟨0, 1001⟩]).Nodup :=
  (nodup_mintedIds_iff _ (fewCalls_of_length (by decide))).mpr (by decide)

/-- **Two processes that mint their first ids in one millisecond** mint one id. -/
theorem twins_collide : ¬ ∀ calls, FewCalls calls → ClocksRise calls → (mintedIds calls).Nodup := by
  intro hall
  have h := hall [⟨0, 1700000000000⟩, ⟨1, 1700000000000⟩] (fewCalls_of_length (by decide))
    (by unfold ClocksRise; decide)
  have hids : mintedIds [⟨0, 1700000000000⟩, ⟨1, 1700000000000⟩] =
      [newId 1700000000000 0, newId 1700000000000 0] := rfl
  rw [hids] at h
  exact (List.nodup_cons.mp h).1 List.mem_cons_self

end HeyoCi
