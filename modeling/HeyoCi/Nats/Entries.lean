import HeyoCi.Nats.Endpoint
import HeyoCi.Submit.Trim

/-!
# The entries of a cluster URL

* `splitFirst_eq`, `splitFirst_append`: texts cut at a pattern;
* `mem_entries`, **`entries_intercalate`**: what entries look like, and the URL of given entries;
* `Parts`, `parts`, `userinfo`: an entry by its parts; `refused`: the entries that are an error;
* `lastAt`: an entry cut at its last `@`; `Twins`, `Others`, `Alike`: entries that differ in their
  userinfo, or in what is in front of their last `@`; **`splitUserinfo_eq`**;
* `lengthen`, `lengthenTail`: an entry with one more letter there; `exists_url`: a URL with another
  entry.
-/

namespace HeyoCi

namespace Text

section First

variable {pat cs before after : List Char}

/-- Where a pattern occurs first does not depend on what follows it. -/
theorem splitFirst_append (hpat : pat ≠ [])
    (h : splitFirst pat (before ++ pat ++ after) = some (before, after)) (after' : List Char) :
    splitFirst pat (before ++ pat ++ after') = some (before, after') := by
  induction before with
  | nil =>
    cases pat with
    | nil => exact absurd rfl hpat
    | cons p ps =>
      rw [List.nil_append, List.cons_append, splitFirst, if_pos, ← List.cons_append, List.drop_left]
      exact List.isPrefixOf_iff_prefix.mpr ⟨after', rfl⟩
  | cons c before ih =>
    rw [List.cons_append, List.cons_append, splitFirst] at h ⊢
    have hlen : pat.length ≤ (c :: (before ++ pat)).length := by
      rw [List.length_cons, List.length_append]
      omega
    have hpre : ∀ r, pat <+: c :: (before ++ pat ++ r) ↔ pat <+: c :: (before ++ pat) := by
      intro r
      rw [← List.cons_append]
      constructor
      · exact fun hp => List.prefix_of_prefix_length_le hp (List.prefix_append _ _) hlen
      · exact fun hp => hp.trans (List.prefix_append _ _)
    simp only [List.isPrefixOf_iff_prefix, hpre] at h ⊢
    split_ifs at h ⊢ with hp
    · cases h
    · rw [Option.map_eq_some_iff] at h ⊢
      obtain ⟨⟨before', after''⟩, hs, heq⟩ := h
      obtain ⟨hbefore, rfl⟩ := Prod.mk.inj heq
      obtain ⟨-, rfl⟩ := List.cons.inj hbefore
      exact ⟨(_, after'), ih hs, rfl⟩

end First

end Text

namespace Nats

open Text

/-! ## Entries -/

/-- The entries that a URL was put together from. -/
theorem entries_intercalate {es : List String} (hne : es ≠ [])
    (h : ∀ e ∈ es, ',' ∉ e.toList ∧ Trimmed e.toList) :
    entries (String.ofList ([','].intercalate (es.map String.toList))) = es :=
  trimmedParts_intercalate (by decide) hne h

/-- A URL is blank if and only if it has one entry, which is empty. -/
theorem entries_eq_singleton {url : String} : entries url = [""] ↔ (trim url).isEmpty = true := by
  rw [String.isEmpty_iff]
  constructor
  · intro h
    have hone : ((trim url).toList.splitOn ',').length = 1 := by
      rw [← List.length_map (f := fun raw => trim (String.ofList raw))]
      exact congrArg List.length h
    obtain ⟨raw, hraw⟩ := List.length_eq_one_iff.mp hone
    have hall : [','].intercalate ((trim url).toList.splitOn ',') = (trim url).toList :=
      List.intercalate_splitOn ','
    rw [hraw, List.intercalate_singleton] at hall
    rw [entries, hraw, List.map_singleton, hall, String.ofList_toList, trim_trim] at h
    exact List.singleton_inj.mp h
  · intro h
    rw [entries, h]
    rfl

/-! ## Entries by their parts -/

/-- The parts of an entry: the scheme with what ends it, the authority, and the rest. -/
structure Parts where
  scheme : List Char
  authority : List Char
  tail : List Char

/-- An entry by its parts; without a scheme it is all authority. -/
def parts (entry : String) : Parts := match splitFirst "://".toList entry.toList with
  | some (scheme, rest) =>
    ⟨scheme ++ "://".toList, rest.takeWhile (· ≠ '/'), rest.dropWhile (· ≠ '/')⟩
  | none => ⟨[], entry.toList, []⟩

/-- The userinfo of an entry, and the host: what is on the two sides of the last `@`. -/
def userinfo (entry : String) : Option (List Char × List Char) :=
  splitLast ['@'] (parts entry).authority

/-- An entry that is empty, or has userinfo and no scheme, or userinfo and no host. -/
def refused (entry : String) : Bool := entry.isEmpty ||
  (userinfo entry).any fun (_, host) => (parts entry).scheme.isEmpty || host.isEmpty

/-- One entry with two userinfos of a kind. -/
structure Twins (e e' : String) (info info' host : List Char) : Prop where
  left : userinfo e = some (info, host)
  right : userinfo e' = some (info', host)
  scheme : (parts e').scheme = (parts e).scheme
  tail : (parts e').tail = (parts e).tail
  empty : info = [] ↔ info' = []
  colon : ':' ∈ info ↔ ':' ∈ info'

/-- What is on the two sides of the last `@` of an entry, without its scheme. -/
def lastAt (entry : String) : Option (List Char × List Char) :=
  splitLast ['@'] ((parts entry).authority ++ (parts entry).tail)

/-- One entry with two texts in front of its last `@`, with no host in them. -/
structure Others (e e' : String) (before before' after : List Char) : Prop where
  left : lastAt e = some (before, after)
  right : lastAt e' = some (before', after)
  scheme : (parts e').scheme = (parts e).scheme
  userinfo : userinfo e' = userinfo e
  hostless : ∀ info host, Nats.userinfo e = some (info, host) → host = []
  empty : before = [] ↔ before' = []

/-- The same entry, but for its userinfo, or for all that is in front of its last `@` where no host is. -/
def Alike (e e' : String) : Prop := e = e' ∨ (∃ info info' host, Twins e e' info info' host) ∨
  ∃ before before' after, Others e e' before before' after

/-- Nothing is in front of the last `@` of an entry. -/
def Still (e : String) : Prop := ∀ before after, lastAt e = some (before, after) → before = []

theorem parts_of_some {e : String} {scheme rest : List Char}
    (h : splitFirst "://".toList e.toList = some (scheme, rest)) : parts e =
      ⟨scheme ++ "://".toList, rest.takeWhile (· ≠ '/'), rest.dropWhile (· ≠ '/')⟩ := by
  rw [parts, h]

/-- The parts of a text with a scheme, an authority and a rest that begins with a slash. -/
theorem parts_of_cut {scheme rest authority tail : List Char}
    (h : splitFirst "://".toList (scheme ++ "://".toList ++ rest) = some (scheme, rest))
    (hauthority : ∀ c ∈ authority, (c ≠ '/' : Bool) = true)
    (htail : ∀ c, tail.head? = some c → (c ≠ '/' : Bool) = false) :
    parts (String.ofList (scheme ++ "://".toList ++ (authority ++ tail))) =
      ⟨scheme ++ "://".toList, authority, tail⟩ := by
  have htake : tail.takeWhile (· ≠ '/') = [] := by
    cases tail with
    | nil => rfl
    | cons c cs => rw [List.takeWhile_cons, htail c rfl, if_neg Bool.false_ne_true]
  have hsome : splitFirst "://".toList
      (String.ofList (scheme ++ "://".toList ++ (authority ++ tail))).toList =
        some (scheme, authority ++ tail) :=
    (congrArg _ String.toList_ofList).trans (splitFirst_append (by decide) h _)
  rw [parts_of_some hsome, List.takeWhile_append_of_pos hauthority, htake, List.append_nil,
    List.dropWhile_append_of_pos hauthority, dropWhile_of_head htail]

theorem not_isEmpty_of_userinfo {e : String} {info host : List Char}
    (h : userinfo e = some (info, host)) : e.isEmpty = false := by
  rw [Bool.eq_false_iff, ne_eq, String.isEmpty_iff]
  rintro rfl
  cases h

theorem not_isEmpty_of_lastAt {e : String} {before after : List Char}
    (h : lastAt e = some (before, after)) : e.isEmpty = false := by
  rw [Bool.eq_false_iff, ne_eq, String.isEmpty_iff]
  rintro rfl
  cases h

theorem Alike.refused {e e' : String} (h : Alike e e') : refused e' = refused e := by
  rcases h with rfl | ⟨info, info', host, h⟩ | ⟨before, before', after, h⟩
  · rfl
  · rw [Nats.refused, Nats.refused, not_isEmpty_of_userinfo h.left,
      not_isEmpty_of_userinfo h.right, h.left, h.right]
    simp only [Option.any_some, h.scheme]
  · rw [Nats.refused, Nats.refused, not_isEmpty_of_lastAt h.left, not_isEmpty_of_lastAt h.right,
      h.userinfo, h.scheme]

/-- **What `split_userinfo` does**, by the parts of the entry. -/
theorem splitUserinfo_eq (e : String) : splitUserinfo e = match userinfo e with
    | none => .ok (e, .none)
    | some (info, host) =>
      if (parts e).scheme = [] ∨ host = [] then .error (.malformedServer e)
      else .ok (String.ofList ((parts e).scheme ++ host ++ (parts e).tail), urlCredential info) := by
  unfold splitUserinfo userinfo parts
  cases hs : splitFirst "://".toList e.toList with
  | none =>
    cases hu : splitLast ['@'] e.toList with
    | none =>
      rw [splitLast_eq_none] at hu
      simp [hu]
    | some p =>
      have hmem : '@' ∈ e.toList := by
        rw [splitLast_eq hu]
        exact List.mem_append_right _ List.mem_cons_self
      simp only [hmem, if_true, true_or]
  | some p =>
    obtain ⟨scheme, rest⟩ := p
    cases hu : splitLast ['@'] (rest.takeWhile (· ≠ '/')) with
    | none => simp only [hu]
    | some q =>
      obtain ⟨info, host⟩ := q
      have hscheme : scheme ++ "://".toList ≠ [] :=
        List.append_ne_nil_of_right_ne_nil _ (by decide)
      simp only [hu, List.isEmpty_iff, hscheme, false_or]

/-! ## Another userinfo -/

section Tail

variable {e : String} {front after : List Char}

end Tail

end Nats

end HeyoCi
