import Mathlib.Data.Finset.Card
import Mathlib.Tactic.SplitIfs

/-!
# Maps as sorted lists of members

* `insert`, `extend`: a member put into a map in place of the one of its key, and several, one after
  the other;
* `lookup_insert`, `lookup_insert_of_ne`; **`lookup_extend`**: the last member of a key counts;
  `mem_of_lookup_extend`, `lookup_extend_ne_none`: what is found was put in, and the other way round;
* **`injOn_of_named`**: where different items can be told apart by names at all, by those of a list of
  them, the list gives every item one of its own.
-/

universe u v

namespace Dict

section Insert

variable {K : Type u} {V : Type v} [DecidableEq K] [LT K] [DecidableLT K]

/-- Put in a member, in place of one of the same key. -/
def insert (k : K) (v : V) : List (K × V) → List (K × V)
  | [] => [(k, v)]
  | (l, w) :: m => if k = l then (k, v) :: m
      else if k < l then (k, v) :: (l, w) :: m else (l, w) :: insert k v m

/-- Put in several members, one after the other. -/
def extend (m ms : List (K × V)) : List (K × V) := ms.foldl (fun m kv => insert kv.1 kv.2 m) m

variable {k l : K} {v : V} {m ms : List (K × V)}

theorem lookup_insert : (insert k v m).lookup k = some v := by
  induction m with
  | nil => rw [insert, List.lookup_cons_self]
  | cons p m ih =>
    obtain ⟨l, w⟩ := p
    rw [insert]
    split_ifs with hl hlt
    · exact List.lookup_cons_self
    · exact List.lookup_cons_self
    · rw [List.lookup_cons, beq_false_of_ne hl]
      exact ih

theorem lookup_insert_of_ne (h : l ≠ k) : (insert k v m).lookup l = m.lookup l := by
  have hk : (l == k) = false := beq_false_of_ne h
  induction m with
  | nil => rw [insert, List.lookup_cons, hk]
  | cons p m ih =>
    obtain ⟨j, w⟩ := p
    rw [insert]
    split_ifs with hj hlt
    · subst hj
      rw [List.lookup_cons, List.lookup_cons, hk]
    · rw [List.lookup_cons, hk]
    · rw [List.lookup_cons, List.lookup_cons, ih]

/-- **The last member of a key counts**, and one that was there before if there is none. -/
theorem lookup_extend : (extend m ms).lookup k = (ms.reverse.lookup k).or (m.lookup k) := by
  induction ms generalizing m with
  | nil => rfl
  | cons p ms ih =>
    obtain ⟨l, w⟩ := p
    have hstep : extend m ((l, w) :: ms) = extend (insert l w m) ms := rfl
    rw [hstep, ih, List.reverse_cons, List.lookup_append, Option.or_assoc]
    congr 1
    by_cases hk : k = l
    · subst hk
      rw [lookup_insert, List.lookup_cons_self, Option.some_or]
    · rw [lookup_insert_of_ne hk, List.lookup_cons, beq_false_of_ne hk, List.lookup_nil, Option.none_or]

theorem mem_of_lookup_extend (h : (extend [] ms).lookup k = some v) : (k, v) ∈ ms := by
  rw [lookup_extend, List.lookup_nil, Option.or_none, List.lookup_eq_some_iff] at h
  obtain ⟨l₁, l₂, hms, -⟩ := h
  rw [← List.mem_reverse, hms]
  exact List.mem_append_right _ List.mem_cons_self

theorem lookup_extend_ne_none (h : (k, v) ∈ ms) : (extend [] ms).lookup k ≠ none := by
  rw [lookup_extend, List.lookup_nil, Option.or_none, ne_eq, List.lookup_eq_none_iff]
  intro hall
  have hne := hall (k, v) (List.mem_reverse.mpr h)
  simp at hne

end Insert

/-! ## Names -/

variable {α : Type u} {β : Type v} [DecidableEq β]

/-- **If other names tell some items apart and all occur among the items' own, then the items' own
names tell them apart**, and every item has one. -/
theorem injOn_of_named {s : Finset α} {name : α → Option β} (other : α → β)
    (hother : Set.InjOn other s) (h : ∀ a ∈ s, ∃ b ∈ s, name b = some (other a)) :
    Set.InjOn name s ∧ ∀ a ∈ s, name a ≠ none := by
  have hsub : s.image (fun a => some (other a)) ⊆ s.image name := by
    intro x hx
    obtain ⟨a, ha, rfl⟩ := Finset.mem_image.mp hx
    obtain ⟨b, hb, heq⟩ := h a ha
    exact Finset.mem_image.mpr ⟨b, hb, heq⟩
  have hcard : (s.image fun a => some (other a)).card = s.card :=
    Finset.card_image_of_injOn fun a ha b hb heq => hother ha hb (Option.some.inj heq)
  have hle := Finset.card_le_card hsub
  have hge : (s.image name).card ≤ s.card := Finset.card_image_le
  refine ⟨Finset.card_image_iff.mp (by omega), fun a ha hnone => ?_⟩
  have heq := Finset.eq_of_subset_of_card_le hsub (by omega)
  have hmem : (none : Option β) ∈ s.image fun a => some (other a) := by
    rw [heq]
    exact Finset.mem_image.mpr ⟨a, ha, hnone⟩
  obtain ⟨b, -, hb⟩ := Finset.mem_image.mp hmem
  cases hb

end Dict
