import HeyoCi.Dispatch.Place
import HeyoCi.Lib.Subjects

/-!
# The names on the bus

An installation has a prefix. It names the two streams, and with a route the subject a job is
published on and the durable consumer that reads it.

* `isSubjectToken`, `checkToken`: the words a name may be made of;
* `Bus`, `Bus.connect`: an installation, by its prefix;
* `Bus.jobsStream`, `Bus.subjectFor`, `Bus.durableFor`, …: the names;
* `Bus.Separate`: nothing that two routes have in common;
* **`separate_iff`**: when two routes are kept apart;
* `letter_case_shared`: two prefixes with the same streams.
-/

namespace HeyoCi

def isTokenChar (c : Char) : Bool := c.isAlphanum || c = '_' || c = '-'

/-- What may be put into a subject and into the name of a consumer. -/
def isSubjectToken (s : String) : Bool := !s.isEmpty && s.toList.all isTokenChar

inductive BusError where
  | badToken (t : String)
  deriving Repr, DecidableEq

def BusError.text : BusError → String
  | badToken t => s!"{Text.debugStr t} cannot be part of a NATS subject; ids must be " ++
      "[A-Za-z0-9_-]. This is checked here because a subject is interpolated, not escaped."

def checkToken (s : String) : Except BusError Unit :=
  if isSubjectToken s then .ok () else .error (.badToken s)

/-- An installation. -/
structure Bus where
  subjectPrefix : String
  isToken : isSubjectToken subjectPrefix = true

namespace Bus

/-- The prefix is checked before the broker is asked for anything. -/
def connect (subjectPrefix : String) : Except BusError Bus :=
  if h : isSubjectToken subjectPrefix = true then .ok ⟨subjectPrefix, h⟩
  else .error (.badToken subjectPrefix)

variable (b : Bus)

/-- `to_uppercase`, of letters, digits, `_` and `-`. -/
def upper : String := String.ofList (b.subjectPrefix.toList.map Char.toUpper)

def jobsStream : String := b.upper ++ "_JOBS"

def eventsStream : String := b.upper ++ "_EVENTS"

/-- The subjects the stream of the jobs takes. -/
def jobSubjects : String := b.subjectPrefix ++ ".job.>"

/-- The subject a route is published on, which is also the filter of its consumer. -/
def subjectFor : Route → Except BusError String
  | .runner id => (checkToken id).map fun _ => b.subjectPrefix ++ ".job.r." ++ id
  | .network id => (checkToken id).map fun _ => b.subjectPrefix ++ ".job.n." ++ id

/-- The name of the durable consumer of a route. -/
def durableFor : Route → Except BusError String
  | .runner id => (checkToken id).map fun _ => b.subjectPrefix ++ "-r-" ++ id
  | .network id => (checkToken id).map fun _ => b.subjectPrefix ++ "-n-" ++ id

end Bus

/-- Whether the consumer with a filter gets what is published on a subject. -/
def delivered (filter subject : String) : Bool :=
  Subjects.takes (Subjects.words filter.toList) (Subjects.words subject.toList)

/-- Two routes have nothing in common: not the subject, not what their consumers get, not the consumer
where the stream is one; and two installations have no stream in common. -/
structure Bus.Separate (b b' : Bus) (r r' : Route) : Prop where
  subjects : (b.subjectPrefix, r) ≠ (b'.subjectPrefix, r') → ∀ s s', b.subjectFor r = .ok s →
    b'.subjectFor r' = .ok s' → s ≠ s' ∧ delivered s s' = false ∧ delivered s' s = false
  durables : (b.subjectPrefix, r) ≠ (b'.subjectPrefix, r') → b.jobsStream = b'.jobsStream →
    ∀ d d', b.durableFor r = .ok d → b'.durableFor r' = .ok d' → d ≠ d'
  streams : b.subjectPrefix ≠ b'.subjectPrefix → b.jobsStream ≠ b'.jobsStream ∧
    b.eventsStream ≠ b'.eventsStream ∧ b.jobsStream ≠ b'.eventsStream ∧
    b.eventsStream ≠ b'.jobsStream

/-! ## Words -/

/-- A word of a subject has no dot and is no wildcard. -/
theorem plain_of_token {s : String} (h : isSubjectToken s = true) :
    '.' ∉ s.toList ∧ Subjects.Plain s.toList := by
  simp only [isSubjectToken, Bool.and_eq_true, List.all_eq_true] at h
  refine ⟨fun hm => ?_, fun he => ?_, fun he => ?_⟩
  · exact absurd (h.2 _ hm) (by decide)
  · exact absurd (h.2 '*' (by rw [he]; exact List.mem_singleton_self _)) (by decide)
  · exact absurd (h.2 '>' (by rw [he]; exact List.mem_singleton_self _)) (by decide)

theorem checkToken_map_ok {s t : String} {f : Unit → String} :
    (checkToken s).map f = .ok t ↔ isSubjectToken s = true ∧ f () = t := by
  unfold checkToken
  split_ifs with h
  · simp [Except.map, h]
  · simp [Except.map, h]

/-- The letter that keeps hosts and networks apart. -/
def Route.letter : Route → Char
  | .runner _ => 'r'
  | .network _ => 'n'

def Route.id : Route → String
  | .runner id | .network id => id

theorem Route.eq_of_letter {r r' : Route} (hl : r.letter = r'.letter) (hid : r.id = r'.id) :
    r = r' := by
  cases r <;> cases r' <;> simp_all [letter, id]

namespace Bus

variable {b b' : Bus} {r r' : Route} {s s' : String}

/-- The words of a subject. -/
def subjectWords (b : Bus) (r : Route) : List (List Char) :=
  [b.subjectPrefix.toList, "job".toList, [r.letter], r.id.toList]

theorem plain_subjectWords (hid : isSubjectToken r.id = true) :
    ∀ w ∈ b.subjectWords r, '.' ∉ w ∧ Subjects.Plain w := by
  intro w hw
  simp only [subjectWords, List.mem_cons, List.not_mem_nil, or_false] at hw
  rcases hw with rfl | rfl | rfl | rfl
  · exact plain_of_token b.isToken
  · exact plain_of_token (s := "job") (by decide)
  · cases r <;> simp [Route.letter, Subjects.Plain]
  · exact plain_of_token hid

/-- **The words of a subject determine the route.** -/
theorem words_subjectFor (h : b.subjectFor r = .ok s) :
    isSubjectToken r.id = true ∧ Subjects.words s.toList = b.subjectWords r := by
  obtain ⟨hid, hs⟩ : isSubjectToken r.id = true ∧
      s.toList = ['.'].intercalate (b.subjectWords r) := by
    cases r with
    | runner id | network id =>
      obtain ⟨hid, rfl⟩ := checkToken_map_ok.mp h
      exact ⟨hid, by simp [subjectWords, Route.letter, Route.id, List.intercalate_cons_cons]⟩
  refine ⟨hid, ?_⟩
  rw [hs]
  exact Subjects.words_intercalate (fun w hw => (plain_subjectWords hid w hw).1) (by simp [subjectWords])

theorem subjectWords_inj (h : b.subjectWords r = b'.subjectWords r') :
    (b.subjectPrefix, r) = (b'.subjectPrefix, r') := by
  simp only [subjectWords, List.cons.injEq, and_true, true_and, String.toList_inj] at h
  rw [h.1, Route.eq_of_letter h.2.1 h.2.2]

/-- Two routes with different prefixes, hosts or networks have different subjects, and no consumer
gets the jobs of the other. -/
theorem subjects_apart (hne : (b.subjectPrefix, r) ≠ (b'.subjectPrefix, r'))
    (h : b.subjectFor r = .ok s) (h' : b'.subjectFor r' = .ok s') :
    s ≠ s' ∧ delivered s s' = false := by
  obtain ⟨hid, hw⟩ := words_subjectFor h
  obtain ⟨-, hw'⟩ := words_subjectFor h'
  constructor
  · rintro rfl
    exact hne (subjectWords_inj (hw.symm.trans hw'))
  · rw [delivered, hw, hw', Bool.eq_false_iff]
    intro ht
    exact hne (subjectWords_inj
      ((Subjects.takes_plain fun w hm => (plain_subjectWords hid w hm).2).mp ht))

/-- The stream of an installation takes the subjects of its own routes. -/
theorem delivered_jobSubjects (h : b'.subjectFor r' = .ok s') :
    delivered b.jobSubjects s' = true ↔ b.subjectPrefix = b'.subjectPrefix := by
  have hwords : Subjects.words b.jobSubjects.toList =
      [b.subjectPrefix.toList, "job".toList] ++ [['>']] := by
    have he : b.jobSubjects.toList =
        ['.'].intercalate [b.subjectPrefix.toList, "job".toList, ['>']] := by
      simp [jobSubjects, List.intercalate_cons_cons]
    rw [he]
    refine Subjects.words_intercalate (fun w hw => ?_) (by simp)
    simp only [List.mem_cons, List.not_mem_nil, or_false] at hw
    rcases hw with rfl | rfl | rfl
    · exact (plain_of_token b.isToken).1
    · decide
    · decide
  rw [delivered, hwords, (words_subjectFor h).2, Subjects.takes_rest]
  · constructor
    · rintro ⟨w, ws, he⟩
      simp only [subjectWords, List.cons_append, List.cons.injEq, String.toList_inj] at he
      exact he.1.symm
    · rintro he
      exact ⟨_, _, by rw [he]; rfl⟩
  · intro w hw
    simp only [List.mem_cons, List.not_mem_nil, or_false] at hw
    rcases hw with rfl | rfl
    · exact (plain_of_token b.isToken).2
    · exact (plain_of_token (s := "job") (by decide)).2

/-! ## Consumers and streams -/

theorem toList_durableFor (h : b.durableFor r = .ok s) :
    s.toList = b.subjectPrefix.toList ++ (['-', r.letter, '-'] ++ r.id.toList) := by
  cases r with
  | runner id | network id =>
    obtain ⟨-, rfl⟩ := checkToken_map_ok.mp h
    simp [Route.letter, Route.id]

theorem jobsStream_inj : b.jobsStream = b'.jobsStream ↔
    b.subjectPrefix.toList.map Char.toUpper = b'.subjectPrefix.toList.map Char.toUpper := by
  rw [← String.toList_inj]
  simp [jobsStream, upper]

theorem eventsStream_inj : b.eventsStream = b'.eventsStream ↔
    b.subjectPrefix.toList.map Char.toUpper = b'.subjectPrefix.toList.map Char.toUpper := by
  rw [← String.toList_inj]
  simp [eventsStream, upper]

theorem jobsStream_ne_eventsStream : b.jobsStream ≠ b'.eventsStream := by
  intro h
  have hr := congrArg (fun t => t.toList.reverse) h
  simp [jobsStream, eventsStream] at hr

/-- In one stream, two routes have different consumers. -/
theorem durables_apart (hne : (b.subjectPrefix, r) ≠ (b'.subjectPrefix, r'))
    (hstream : b.jobsStream = b'.jobsStream) (h : b.durableFor r = .ok s)
    (h' : b'.durableFor r' = .ok s') : s ≠ s' := by
  rintro rfl
  -- prefixes of one stream are equally long, so the names part at one place
  have hlen : b.subjectPrefix.toList.length = b'.subjectPrefix.toList.length := by
    simpa using congrArg List.length (jobsStream_inj.mp hstream)
  obtain ⟨hp, hrest⟩ := List.append_inj ((toList_durableFor h).symm.trans (toList_durableFor h')) hlen
  simp only [List.cons_append, List.nil_append, List.cons.injEq, true_and, String.toList_inj] at hrest hp
  exact hne (by rw [hp, Route.eq_of_letter hrest.1 hrest.2])

theorem toNat_lt_of_token {c : Char} (h : isTokenChar c = true) : c.toNat < 128 := by
  delta isTokenChar Char.isAlphanum Char.isAlpha Char.isUpper Char.isLower Char.isDigit at h
  simp only [Bool.or_eq_true, Bool.and_eq_true, decide_eq_true_eq, UInt32.le_iff_toNat_le,
    ge_iff_le] at h
  change c.val.toNat < 128
  rcases h with (((⟨-, h⟩ | ⟨-, h⟩) | ⟨-, h⟩) | rfl) | rfl
  · exact Nat.lt_of_le_of_lt h (by decide)
  · exact Nat.lt_of_le_of_lt h (by decide)
  · exact Nat.lt_of_le_of_lt h (by decide)
  · decide
  · decide

theorem case_of_token {c : Char} (h : isTokenChar c = true) :
    c.toUpper.toLower = c.toLower ∧ c.toLower.toUpper = c.toUpper := by
  have hascii : ∀ n : Fin 128, (Char.ofNat n).toUpper.toLower = (Char.ofNat n).toLower ∧
      (Char.ofNat n).toLower.toUpper = (Char.ofNat n).toUpper := by decide
  have hc := hascii ⟨c.toNat, toNat_lt_of_token h⟩
  rwa [Char.ofNat_toNat] at hc

theorem isTokenChar_of_mem {c : Char} (h : c ∈ b.subjectPrefix.toList) : isTokenChar c = true := by
  have ht := b.isToken
  simp only [isSubjectToken, Bool.and_eq_true, List.all_eq_true] at ht
  exact ht.2 c h

/-- Two prefixes have one upper case form when they are equal but for the case of letters. -/
theorem map_toUpper_iff : b.subjectPrefix.toList.map Char.toUpper =
    b'.subjectPrefix.toList.map Char.toUpper ↔
      Text.eqIgnoreAsciiCase b.subjectPrefix b'.subjectPrefix = true := by
  have hlower : ∀ b : Bus, (b.subjectPrefix.toList.map Char.toUpper).map Char.toLower =
      b.subjectPrefix.toList.map Char.toLower := by
    intro b
    rw [List.map_map]
    exact List.map_congr_left fun c hc => (case_of_token (isTokenChar_of_mem hc)).1
  have hupper : ∀ b : Bus, (b.subjectPrefix.toList.map Char.toLower).map Char.toUpper =
      b.subjectPrefix.toList.map Char.toUpper := by
    intro b
    rw [List.map_map]
    exact List.map_congr_left fun c hc => (case_of_token (isTokenChar_of_mem hc)).2
  rw [Text.eqIgnoreAsciiCase, decide_eq_true_eq]
  constructor
  · intro h
    rw [← hlower, ← hlower, h]
  · intro h
    rw [← hupper, ← hupper, h]

end Bus

/-- **Two routes are kept apart exactly when their prefixes are equal or differ in more than the case
of letters.** -/
theorem separate_iff (b b' : Bus) (r r' : Route) : b.Separate b' r r' ↔
    (b.subjectPrefix = b'.subjectPrefix ∨
      Text.eqIgnoreAsciiCase b.subjectPrefix b'.subjectPrefix = false) := by
  constructor
  · intro h
    by_cases he : b.subjectPrefix = b'.subjectPrefix
    · exact Or.inl he
    · refine Or.inr (Bool.eq_false_iff.mpr fun hcase => (h.streams he).1 ?_)
      exact Bus.jobsStream_inj.mpr (Bus.map_toUpper_iff.mpr hcase)
  · intro h
    refine ⟨fun hne s s' hs hs' => ?_, fun hne hstream d d' hd hd' => ?_, fun hne => ?_⟩
    · obtain ⟨hss, hdel⟩ := Bus.subjects_apart hne hs hs'
      exact ⟨hss, hdel, (Bus.subjects_apart hne.symm hs' hs).2⟩
    · exact Bus.durables_apart hne hstream hd hd'
    · have hcase := h.resolve_left hne
      have hupper : ¬ b.subjectPrefix.toList.map Char.toUpper =
          b'.subjectPrefix.toList.map Char.toUpper := by
        rw [Bus.map_toUpper_iff, hcase]
        exact Bool.false_ne_true
      exact ⟨fun he => hupper (Bus.jobsStream_inj.mp he),
        fun he => hupper (Bus.eventsStream_inj.mp he), Bus.jobsStream_ne_eventsStream,
        Bus.jobsStream_ne_eventsStream.symm⟩

/-- Two installations whose prefixes differ in case have one stream. -/
theorem letter_case_shared : ¬ ∀ (b b' : Bus) (r r' : Route), b.Separate b' r r' := by
  intro h
  have hs := h ⟨"ci", by decide⟩ ⟨"CI", by decide⟩ (.runner "hd-1") (.runner "hd-1")
  exact (hs.streams (by decide)).1 (by decide)

end HeyoCi
