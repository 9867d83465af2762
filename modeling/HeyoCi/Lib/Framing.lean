import Mathlib.Algebra.Group.Nat.Defs
import Mathlib.Data.Set.Function
import HeyoCi.Lib.Words

/-!
# Codes that are put one behind the other

* `FramedOn`: where a code begins, what it is of and what is behind it are known;
* `framedOn_fixed`, `framedOn_ended`, `framedOn_marked`: codes of one length, codes that are ended by a
  letter they do not have, codes with a mark in place of no item;
* `bigEndian`, `framedOn_sized`: numbers of so many bytes, and texts behind their lengths;
* `FramedOn.pair`: one code behind another;
* **`FramedOn.flatMap_inj`**: a list is known by the codes of its items.
-/

universe u v w

namespace Framing

variable {α : Type u} {β : Type v} {γ : Type w} {s : Set α} {t : Set γ} {enc : α → List β}
  {enc' : γ → List β}

/-- Where the code of an item begins, the item and what is behind its code are known. -/
def FramedOn (s : Set α) (enc : α → List β) : Prop :=
  ∀ a ∈ s, ∀ b ∈ s, ∀ xs ys, enc a ++ xs = enc b ++ ys → a = b ∧ xs = ys

theorem FramedOn.inj (h : FramedOn s enc) : Set.InjOn enc s := by
  intro a ha b hb heq
  exact (h a ha b hb [] [] (by rw [heq])).1

/-- Codes of one length. -/
theorem framedOn_fixed {n : Nat} (hlen : ∀ a ∈ s, (enc a).length = n) (hinj : Set.InjOn enc s) :
    FramedOn s enc := by
  intro a ha b hb xs ys heq
  obtain ⟨hab, hxy⟩ := List.append_inj heq ((hlen a ha).trans (hlen b hb).symm)
  exact ⟨hinj ha hb hab, hxy⟩

/-- Codes that are ended by a letter they do not have. -/
theorem framedOn_ended {stop : β} (hstop : ∀ a ∈ s, stop ∉ enc a) (hinj : Set.InjOn enc s) :
    FramedOn s fun a => enc a ++ [stop] := by
  intro a ha b hb xs ys heq
  rw [List.append_assoc, List.append_assoc] at heq
  obtain ⟨hab, hxy⟩ := Words.split_inj heq (hstop a ha) (hstop b hb)
  exact ⟨hinj ha hb hab, hxy⟩

/-- Codes with a mark in place of no item, which no code goes on or begins as. -/
theorem framedOn_marked {mark : List β} (h : FramedOn s enc)
    (hmark : ∀ a ∈ s, ¬ mark <+: enc a ∧ ¬ enc a <+: mark) :
    FramedOn {o : Option α | ∀ a ∈ o, a ∈ s} fun o => o.elim mark enc := by
  have hno : ∀ a ∈ s, ∀ xs ys, mark ++ xs ≠ enc a ++ ys := by
    intro a ha xs ys heq
    rcases List.prefix_or_prefix_of_prefix (List.prefix_append mark xs)
      (heq ▸ List.prefix_append (enc a) ys) with hpre | hpre
    · exact (hmark a ha).1 hpre
    · exact (hmark a ha).2 hpre
  rintro (_ | a) ha (_ | b) hb xs ys heq
  · exact ⟨rfl, List.append_cancel_left heq⟩
  · exact absurd heq (hno b (hb b rfl) xs ys)
  · exact absurd heq.symm (hno a (ha a rfl) ys xs)
  · obtain ⟨hab, hxy⟩ := h a (ha a rfl) b (hb b rfl) xs ys heq
    exact ⟨congrArg some hab, hxy⟩

/-- Texts behind their lengths. -/
theorem framedOn_sized {size : ℕ → List β} {n : ℕ} (h : FramedOn {k : ℕ | k < n} size) :
    FramedOn {xs : List β | xs.length < n} fun xs => size xs.length ++ xs := by
  intro xs hxs ys hys as bs heq
  simp only [List.append_assoc] at heq
  obtain ⟨hlen, hrest⟩ := h _ hxs _ hys _ _ heq
  exact List.append_inj hrest hlen

/-- One code behind another. -/
theorem FramedOn.pair (h : FramedOn s enc) (h' : FramedOn t enc') :
    FramedOn (s ×ˢ t) fun p => enc p.1 ++ enc' p.2 := by
  rintro ⟨a, c⟩ ⟨ha, hc⟩ ⟨b, d⟩ ⟨hb, hd⟩ xs ys heq
  simp only [List.append_assoc] at heq
  obtain ⟨rfl, hrest⟩ := h a ha b hb _ _ heq
  obtain ⟨rfl, hxy⟩ := h' c hc d hd _ _ hrest
  exact ⟨rfl, hxy⟩

/-- **A list is known by the codes of its items**, where none is empty. -/
theorem FramedOn.flatMap_inj (h : FramedOn s enc) (hne : ∀ a ∈ s, enc a ≠ []) {as bs : List α}
    (has : ∀ a ∈ as, a ∈ s) (hbs : ∀ b ∈ bs, b ∈ s) (heq : as.flatMap enc = bs.flatMap enc) :
    as = bs := by
  induction as generalizing bs with
  | nil =>
    cases bs with
    | nil => rfl
    | cons b bs =>
      rw [List.flatMap_nil, List.flatMap_cons] at heq
      exact absurd (List.append_eq_nil_iff.mp heq.symm).1 (hne b (hbs b List.mem_cons_self))
  | cons a as ih =>
    cases bs with
    | nil =>
      rw [List.flatMap_nil, List.flatMap_cons] at heq
      exact absurd (List.append_eq_nil_iff.mp heq).1 (hne a (has a List.mem_cons_self))
    | cons b bs =>
      rw [List.flatMap_cons, List.flatMap_cons] at heq
      obtain ⟨rfl, hrest⟩ := h a (has a List.mem_cons_self) b (hbs b List.mem_cons_self) _ _ heq
      rw [ih (fun c hc => has c (List.mem_cons_of_mem a hc))
        (fun c hc => hbs c (List.mem_cons_of_mem a hc)) hrest]

/-! ## Numbers -/

/-- The last bytes of a number, the highest one first. -/
def bigEndian : ℕ → ℕ → List UInt8
  | 0, _ => []
  | k + 1, n => bigEndian k (n / 256) ++ [UInt8.ofNat n]

theorem length_bigEndian (k n : ℕ) : (bigEndian k n).length = k := by
  induction k generalizing n with
  | zero => rfl
  | succ k ih => rw [bigEndian, List.length_append, ih, List.length_singleton]

theorem bigEndian_inj {k m n : ℕ} (hm : m < 256 ^ k) (hn : n < 256 ^ k)
    (h : bigEndian k m = bigEndian k n) : m = n := by
  induction k generalizing m n with
  | zero => omega
  | succ k ih =>
    rw [Nat.pow_succ] at hm hn
    obtain ⟨hhigh, hlow⟩ := List.append_inj h
      ((length_bigEndian k _).trans (length_bigEndian k _).symm)
    have hdiv := ih (Nat.div_lt_of_lt_mul (by omega)) (Nat.div_lt_of_lt_mul (by omega)) hhigh
    have hmod : m % 256 = n % 256 := by simpa using congrArg UInt8.toNat (List.singleton_inj.mp hlow)
    omega

theorem framedOn_bigEndian (k : ℕ) : FramedOn {n : ℕ | n < 256 ^ k} (bigEndian k) :=
  framedOn_fixed (fun n _ => length_bigEndian k n) fun _ hm _ hn h => bigEndian_inj hm hn h

end Framing
