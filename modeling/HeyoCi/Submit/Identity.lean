import HeyoCi.Lib.Words
import HeyoCi.Submit.Trim

/-!
# When two clone URLs name one repository

* `CloneUrl`: a URL in one of the spellings that are supported, by its parts; `CloneUrl.render`;
* `CloneUrl.key`: its repository, as a host and a path; `Told`: the code tells two URLs apart right;
* `Clear`: no port, and a path without separators of its own that is left as it is;
* `Settled`: a URL is told from the clear ones and from itself on other hosts, and its normal form
  is normal;
* **`settled_iff_clear`**: these are the same; `exists_impostor`: no URL is told from all.
-/

namespace HeyoCi

open Text

/-! ## URLs by their parts -/

/-- The characters of a part: no white space and none of some separators. -/
abbrev UrlPart (separators : List Char) :=
  {cs : List Char // ∀ c ∈ cs, isWhitespace c = false ∧ c ∉ separators}

/-- A part of some characters. -/
def UrlPart.of {separators : List Char} (cs : List Char)
    (h : (cs.all fun c => !isWhitespace c && !separators.contains c) = true) : UrlPart separators :=
  ⟨cs, fun c hc => by simpa using List.all_eq_true.mp h c hc⟩

/-- How a URL is written around its host and its path: `scheme://[userinfo@]host[:port]/path`, or
`user@host:path`. -/
inductive Spelling where
  | url (scheme : UrlPart [':', '/', '@']) (userinfo : Option (UrlPart ['/']))
      (port : Option (UrlPart [':', '/', '@']))
  | scp (user : UrlPart [':', '/', '@'])

namespace Spelling

def creds : Spelling → List Char
  | url _ userinfo _ => userinfo.elim [] fun u => u.val ++ ['@']
  | scp user => user.val ++ ['@']

def scheme : Spelling → List Char
  | url scheme _ _ => scheme.val ++ "://".toList
  | scp _ => []

def port : Spelling → List Char
  | url _ _ port => port.elim [] fun q => ':' :: q.val
  | scp _ => []

/-- What stands between the host and the path. -/
def separator : Spelling → Char
  | url .. => '/'
  | scp _ => ':'

theorem separator_cases (s : Spelling) : s.separator = '/' ∨ s.separator = ':' := by
  cases s with
  | url => exact Or.inl rfl
  | scp => exact Or.inr rfl

end Spelling

/-- A clone URL. -/
structure CloneUrl where
  spelling : Spelling
  host : UrlPart [':', '/', '@']
  host_ne : host.val ≠ []
  path : UrlPart []

namespace CloneUrl

variable (u v : CloneUrl)

def chars : List Char := u.spelling.scheme ++ (u.spelling.creds ++ (u.host.val ++
  (u.spelling.port ++ u.spelling.separator :: u.path.val)))

def render : String := String.ofList u.chars

/-- The path without its slashes at the end and one `.git` before them. -/
def name : List Char :=
  let path := trimEndMatches "/" u.path.val
  if ".git".toList.isSuffixOf path then path.take (path.length - 4) else path

/-- The repository: the host with its port, and the path, both in small letters. -/
def key : List Char × List Char :=
  ((u.host.val ++ u.spelling.port).map Char.toLower, u.name.map Char.toLower)

/-- `same_repo` says whether the URLs name one repository. -/
def Told : Prop := Repos.sameRepo u.render v.render = true ↔ u.key = v.key

/-- The URL has no port, its path has no `@` and no `:` and does not start like the rest of a scheme,
and what is left of the path is not empty and does not end in a slash or a further `.git`. -/
structure Clear : Prop where
  port : u.spelling.port = []
  at_sign : '@' ∉ u.path.val
  colon : ':' ∉ u.path.val
  slashes : u.spelling.separator = ':' → ¬ ['/', '/'] <+: u.path.val
  name_ne : u.name ≠ []
  slash : ¬ ['/'] <:+ u.name
  git : ¬ ".git".toList <:+ u.name.map Char.toLower

/-- The same URL on another host. -/
def onHost (host : UrlPart [':', '/', '@']) (h : host.val ≠ []) : CloneUrl :=
  { u with host := host, host_ne := h }

/-- A normal form is normal, and `same_repo` is right about the URL and all clear ones, and about the
URL and itself on any host. -/
structure Settled : Prop where
  normal : Repos.normalize (Repos.normalize u.render) = Repos.normalize u.render
  clear : ∀ v : CloneUrl, v.Clear → Told u v
  hosts : ∀ host h, Told u (u.onHost host h)

end CloneUrl

/-! ## What `normalize` does -/

namespace Repos

/-- `normalize`, of a text without white space. -/
def reduced (cs : List Char) : List Char :=
  let s := trimEndMatches "/" cs
  let s := (afterFirst "://".toList s).getD s
  (trimEndMatches ".git" (replaceFirst ':' '/' (afterLast '@' s))).map Char.toLower

theorem normalize_ofList {cs : List Char} (h : ∀ c ∈ cs, isWhitespace c = false) :
    normalize (String.ofList cs) = String.ofList (reduced cs) := by
  unfold normalize
  rw [trim_of_noSpace h, String.toList_ofList]
  rfl

theorem colons : "://".toList = [':', '/', '/'] := by decide

theorem slash : "/".toList = ['/'] := by decide

theorem slash_ne : "/".toList ≠ [] := by decide

theorem git_ne : ".git".toList ≠ [] := by decide

/-- **A text with nothing to remove stays**, but for capital letters. -/
theorem reduced_eq_lower {cs : List Char} (hslash : ¬ ['/'] <:+ cs) (hcolon : ':' ∉ cs)
    (hat : '@' ∉ cs) (hgit : ¬ ".git".toList <:+ cs) : reduced cs = cs.map Char.toLower := by
  unfold reduced
  simp only
  rw [trimEndMatches_eq_self slash_ne (slash ▸ hslash), colons, afterFirst_of_notMem hcolon, Option.getD_none,
    afterLast_of_notMem hat, replaceFirst_of_notMem hcolon, trimEndMatches_eq_self git_ne hgit]

/-- **A text that stays has nothing to remove.** -/
theorem fixed_of_reduced {cs : List Char} (h : reduced cs = cs) :
    ¬ ['/'] <:+ cs ∧ ':' ∉ cs ∧ '@' ∉ cs ∧ ¬ ".git".toList <:+ cs := by
  unfold reduced at h
  simp only at h
  -- no step makes the text longer, so no step makes it shorter
  have hlen := congrArg List.length h
  rw [List.length_map] at hlen
  have hgit := (trimEndMatches_isPrefix git_ne (replaceFirst ':' '/' (afterLast '@'
    ((afterFirst "://".toList (trimEndMatches "/" cs)).getD (trimEndMatches "/" cs))))).length_le
  rw [length_replaceFirst] at hgit
  have hat := (afterLast_suffix '@' ((afterFirst "://".toList (trimEndMatches "/" cs)).getD
    (trimEndMatches "/" cs))).length_le
  have hslash := (trimEndMatches_isPrefix slash_ne cs).length_le
  cases hfirst : afterFirst "://".toList (trimEndMatches "/" cs) with
  | some r =>
    have hlt := length_afterFirst (by decide) hfirst
    rw [hfirst, Option.getD_some] at hlen hgit hat
    omega
  | none =>
    rw [hfirst, Option.getD_none] at h hlen hgit hat
    have htrim : trimEndMatches "/" cs = cs :=
      (trimEndMatches_isPrefix slash_ne cs).eq_of_length_le (by omega)
    rw [htrim] at h hlen hgit hat
    have hlast : afterLast '@' cs = cs := (afterLast_suffix '@' cs).eq_of_length_le (by omega)
    rw [hlast] at h hlen hgit
    have hrest : trimEndMatches ".git" (replaceFirst ':' '/' cs) = replaceFirst ':' '/' cs :=
      (trimEndMatches_isPrefix git_ne _).eq_of_length_le (by rw [length_replaceFirst]; omega)
    rw [hrest] at h
    have hcolon : ':' ∉ cs := by
      intro hmem
      obtain ⟨xs, ys, rfl, hxs⟩ := List.eq_append_cons_of_mem hmem
      rw [replaceFirst_append hxs, replaceFirst_cons, List.map_append, List.map_cons] at h
      have htail := (List.append_inj h (List.length_map _)).2
      exact absurd (List.cons.inj htail).1 (by decide)
    rw [replaceFirst_of_notMem hcolon] at hrest
    refine ⟨?_, hcolon, ?_, ?_⟩
    · rw [← htrim]
      exact slash ▸ (trimEndMatches_spec slash_ne cs).1
    · rw [← hlast]
      exact notMem_afterLast '@' cs
    · rw [← hrest]
      exact (trimEndMatches_spec git_ne cs).1

end Repos

namespace CloneUrl

/-! ## The steps on a URL -/

variable {u v : CloneUrl}

theorem notMem_host (u : CloneUrl) {c : Char} (hc : c ∈ [':', '/', '@']) : c ∉ u.host.val :=
  fun hmem => (u.host.property c hmem).2 hc

theorem notMem_port (s : Spelling) {c : Char} (hc : c ∈ ['/', '@']) : c ∉ s.port := by
  have hne : c ≠ ':' := by
    rintro rfl
    exact absurd hc (by decide)
  cases s with
  | scp user => exact List.not_mem_nil
  | url scheme userinfo port =>
    cases port with
    | none => exact List.not_mem_nil
    | some q =>
      intro hmem
      rcases List.mem_cons.mp hmem with heq | hmem
      · exact hne heq
      · exact (q.property c hmem).2 (List.mem_cons_of_mem ':' hc)

/-- What stands behind the host, without slashes at the end. -/
def behind (u : CloneUrl) : List Char :=
  u.spelling.port ++ trimEndMatches "/" (u.spelling.separator :: u.path.val)

theorem trim_chars (u : CloneUrl) : trimEndMatches "/" u.chars =
    u.spelling.scheme ++ (u.spelling.creds ++ (u.host.val ++ u.behind)) := by
  obtain ⟨hend, k, hk⟩ := trimEndMatches_spec Repos.slash_ne (u.spelling.separator :: u.path.val)
  have hchars : u.chars = (u.spelling.scheme ++ (u.spelling.creds ++ (u.host.val ++ u.behind))) ++
      (List.replicate k "/".toList).flatten := by
    rw [chars, hk, behind]
    simp only [List.append_assoc]
  have hne : u.host.val ++ u.behind ≠ [] := fun h => u.host_ne (List.append_eq_nil_iff.mp h).1
  have hlast : ¬ "/".toList <:+ u.host.val ++ u.behind := by
    rw [Repos.slash] at hend ⊢
    rw [behind, ← List.append_assoc]
    by_cases htail : trimEndMatches "/" (u.spelling.separator :: u.path.val) = []
    · rw [htail, List.append_nil]
      refine not_suffix_of_notMem fun hmem => ?_
      rcases List.mem_append.mp hmem with hmem | hmem
      · exact u.notMem_host (by decide) hmem
      · exact notMem_port u.spelling (by decide) hmem
    · exact not_suffix_append htail hend _
  rw [hchars]
  apply trimEndMatches_append Repos.slash_ne
  rw [Repos.slash] at hlast ⊢
  rw [← List.append_assoc]
  exact not_suffix_append hne hlast _

/-- What is left of the URL without its scheme. -/
theorem stripped (u : CloneUrl) :
    (afterFirst "://".toList (trimEndMatches "/" u.chars)).getD (trimEndMatches "/" u.chars) =
      if u.spelling.separator = ':' then
        (afterFirst "://".toList u.behind).getD (u.spelling.creds ++ (u.host.val ++ u.behind))
      else u.spelling.creds ++ (u.host.val ++ u.behind) := by
  rw [trim_chars, Repos.colons]
  cases hs : u.spelling with
  | url scheme userinfo port =>
    have hscheme : ':' ∉ scheme.val := fun hmem => (scheme.property _ hmem).2 (by decide)
    have hsep : ¬ (Spelling.url scheme userinfo port).separator = ':' := by
      change ¬ '/' = ':'
      decide
    rw [if_neg hsep, Spelling.scheme, Repos.colons, List.append_assoc, afterFirst_append hscheme,
      afterFirst_self, Option.getD_some]
  | scp user =>
    have huser : ':' ∉ user.val ++ ['@'] := by
      intro hmem
      rcases List.mem_append.mp hmem with hmem | hmem
      · exact (user.property _ hmem).2 (by decide)
      · exact absurd hmem (by decide)
    have hsep : (Spelling.scp user).separator = ':' := rfl
    rw [if_pos hsep, Spelling.scheme, List.nil_append, Spelling.creds, afterFirst_append huser,
      afterFirst_append (u.notMem_host (by decide))]

theorem notMem_slashes {c : Char} (hc : c ≠ '/') (k : Nat) :
    c ∉ (List.replicate k "/".toList).flatten := by
  rw [Repos.slash, List.mem_flatten]
  rintro ⟨l, hl, hmem⟩
  rw [(List.mem_replicate.mp hl).2] at hmem
  exact hc (List.mem_singleton.mp hmem)

theorem mem_behind {c : Char} (hc : c ≠ '/') (h : c ∈ u.path.val) : c ∈ u.behind := by
  obtain ⟨-, k, hk⟩ := trimEndMatches_spec Repos.slash_ne (u.spelling.separator :: u.path.val)
  have hmem : c ∈ u.spelling.separator :: u.path.val := List.mem_cons_of_mem _ h
  rw [hk] at hmem
  exact List.mem_append_right _
    ((List.mem_append.mp hmem).resolve_right (notMem_slashes hc k))

/-- A sign that hides the host: the text behind it is all that is read. -/
def Hidden (u : CloneUrl) : Prop :=
  '@' ∈ u.path.val ∨ (u.spelling.separator = ':' ∧ afterFirst "://".toList u.behind ≠ none)

/-- **A URL that hides its host is read alike on every host.** -/
theorem reduced_onHost (h : u.Hidden) (host : UrlPart [':', '/', '@']) (hne : host.val ≠ []) :
    Repos.reduced (u.onHost host hne).chars = Repos.reduced u.chars := by
  have hbehind : (u.onHost host hne).behind = u.behind := rfl
  have hspelling : (u.onHost host hne).spelling = u.spelling := rfl
  have hread : afterLast '@' ((afterFirst "://".toList (trimEndMatches "/"
      (u.onHost host hne).chars)).getD (trimEndMatches "/" (u.onHost host hne).chars)) =
      afterLast '@' ((afterFirst "://".toList (trimEndMatches "/" u.chars)).getD
        (trimEndMatches "/" u.chars)) := by
    rw [stripped, stripped, hbehind, hspelling]
    have hlast : '@' ∈ u.behind → ∀ xs : List Char,
        afterLast '@' (u.spelling.creds ++ (xs ++ u.behind)) = afterLast '@' u.behind := by
      intro hmem xs
      rw [← List.append_assoc, afterLast_append hmem]
    rcases h with hat | ⟨hsep, hscheme⟩
    · have hmem := mem_behind (by decide) hat
      split_ifs
      · cases afterFirst "://".toList u.behind with
        | none => rw [Option.getD_none, Option.getD_none, hlast hmem, hlast hmem]
        | some r => rfl
      · rw [hlast hmem, hlast hmem]
    · obtain ⟨r, hr⟩ := Option.ne_none_iff_exists'.mp hscheme
      rw [if_pos hsep, if_pos hsep, hr]
      rfl
  unfold Repos.reduced
  simp only
  rw [hread]

/-- **What is read of a URL that does not hide its host.** -/
theorem reduced_of_shown (h : ¬ u.Hidden) : Repos.reduced u.chars =
    (trimEndMatches ".git" (u.host.val ++ replaceFirst ':' '/' u.behind)).map Char.toLower := by
  obtain ⟨hat, hscp⟩ := not_or.mp h
  have hnone : u.spelling.separator = ':' → afterFirst "://".toList u.behind = none :=
    fun hsep => by_contra fun hne => hscp ⟨hsep, hne⟩
  have hbehind : '@' ∉ u.host.val ++ u.behind := by
    intro hmem
    rcases List.mem_append.mp hmem with hmem | hmem
    · exact u.notMem_host (by decide) hmem
    rcases List.mem_append.mp hmem with hmem | hmem
    · exact notMem_port u.spelling (by decide) hmem
    · have hmem' := (trimEndMatches_isPrefix Repos.slash_ne _).subset hmem
      rcases List.mem_cons.mp hmem' with hsep | hmem'
      · rcases u.spelling.separator_cases with heq | heq <;> rw [heq] at hsep <;>
          exact absurd hsep (by decide)
      · exact hat hmem'
  have hstripped : (afterFirst "://".toList (trimEndMatches "/" u.chars)).getD
      (trimEndMatches "/" u.chars) = u.spelling.creds ++ (u.host.val ++ u.behind) := by
    rw [stripped]
    split_ifs with hsep
    · rw [hnone hsep, Option.getD_none]
    · rfl
  have hread : afterLast '@' (u.spelling.creds ++ (u.host.val ++ u.behind)) =
      u.host.val ++ u.behind := by
    cases u.spelling with
    | scp user =>
      rw [Spelling.creds, List.append_assoc]
      exact afterLast_cons hbehind user.val
    | url scheme userinfo port =>
      cases userinfo with
      | none => exact afterLast_of_notMem hbehind
      | some ui =>
        rw [Spelling.creds, Option.elim_some, List.append_assoc]
        exact afterLast_cons hbehind ui.val
  unfold Repos.reduced
  simp only
  rw [hstripped, hread, replaceFirst_append (u.notMem_host (by decide))]

/-! ## Clear URLs -/

theorem mem_lower_iff {c : Char} {cs : List Char} (hc : c.toNat < 65) :
    c ∈ cs.map Char.toLower ↔ c ∈ cs := by
  rw [List.mem_map]
  constructor
  · rintro ⟨d, hd, heq⟩
    rwa [← (toLower_eq_iff hc).mp heq]
  · intro hmem
    exact ⟨c, hmem, (toLower_eq_iff hc).mpr rfl⟩

theorem suffix_lower_iff {c : Char} {cs : List Char} (hc : c.toNat < 65) :
    [c] <:+ cs.map Char.toLower ↔ [c] <:+ cs := by
  rw [List.singleton_suffix_iff_getLast?_eq_some, List.singleton_suffix_iff_getLast?_eq_some,
    List.getLast?_map, Option.map_eq_some_iff]
  constructor
  · rintro ⟨d, hd, heq⟩
    rwa [← (toLower_eq_iff hc).mp heq]
  · intro hlast
    exact ⟨c, hlast, (toLower_eq_iff hc).mpr rfl⟩

theorem lower_lower (cs : List Char) :
    (cs.map Char.toLower).map Char.toLower = cs.map Char.toLower := by
  rw [List.map_map]
  exact List.map_congr_left fun c _ => toLower_toLower c

theorem git_eq : ".git".toList = ['.', 'g', 'i', 't'] := by decide

/-- A `.git` at the end does not reach over a slash. -/
theorem not_git_suffix {xs : List Char} (h : ¬ ".git".toList <:+ xs) (ys : List Char) :
    ¬ ".git".toList <:+ ys ++ '/' :: xs := by
  intro hsuffix
  rw [git_eq] at h hsuffix
  by_cases hlen : 4 ≤ xs.length
  · have htail : xs <:+ ys ++ '/' :: xs :=
      (List.suffix_cons '/' xs).trans (List.suffix_append ys _)
    exact h (List.suffix_of_suffix_length_le hsuffix htail hlen)
  · have hshort : '/' :: xs <:+ ['.', 'g', 'i', 't'] := by
      apply List.suffix_of_suffix_length_le (List.suffix_append ys _) hsuffix
      rw [List.length_cons]
      change xs.length + 1 ≤ 4
      omega
    exact absurd (hshort.subset List.mem_cons_self) (by decide)

theorem name_cases (u : CloneUrl) : trimEndMatches "/" u.path.val = u.name ∨
    trimEndMatches "/" u.path.val = u.name ++ ".git".toList := by
  unfold name
  simp only
  split_ifs with hgit
  · right
    obtain ⟨front, hfront⟩ := List.isSuffixOf_iff_suffix.mp hgit
    rw [← hfront, List.length_append]
    have hlen : front.length + ".git".toList.length - 4 = front.length := by
      rw [git_eq]
      rfl
    rw [hlen, List.take_left]
  · exact Or.inl rfl

theorem path_spec (u : CloneUrl) : ¬ ['/'] <:+ trimEndMatches "/" u.path.val ∧
    ∃ k, u.path.val = trimEndMatches "/" u.path.val ++ (List.replicate k "/".toList).flatten := by
  have hspec := trimEndMatches_spec Repos.slash_ne u.path.val
  exact ⟨Repos.slash ▸ hspec.1, hspec.2⟩

theorem trimmed_ne (h : u.name ≠ []) : trimEndMatches "/" u.path.val ≠ [] := by
  rcases u.name_cases with heq | heq <;> rw [heq]
  · exact h
  · exact fun hnil => h (List.append_eq_nil_iff.mp hnil).1

theorem behind_of_trimmed (hport : u.spelling.port = []) (h : trimEndMatches "/" u.path.val ≠ []) :
    u.behind = u.spelling.separator :: trimEndMatches "/" u.path.val := by
  obtain ⟨hend, k, hk⟩ := u.path_spec
  have hlast : ¬ "/".toList <:+ u.spelling.separator :: trimEndMatches "/" u.path.val := by
    rw [Repos.slash]
    exact not_suffix_append h hend [u.spelling.separator]
  have happend := trimEndMatches_append Repos.slash_ne hlast k
  rw [List.cons_append, ← hk] at happend
  rw [behind, hport, List.nil_append, happend]

theorem name_subset {c : Char} (h : c ∈ u.name) : c ∈ u.path.val := by
  apply (trimEndMatches_isPrefix Repos.slash_ne u.path.val).subset
  rcases u.name_cases with heq | heq <;> rw [heq]
  · exact h
  · exact List.mem_append_left _ h

/-- Nothing but slashes and a `.git` is removed from a path. -/
theorem mem_name {c : Char} (hslash : c ≠ '/') (hgit : c ∉ ['.', 'g', 'i', 't'])
    (h : c ∈ u.path.val) : c ∈ u.name := by
  obtain ⟨-, k, hk⟩ := u.path_spec
  have htrimmed : c ∈ trimEndMatches "/" u.path.val := by
    rw [hk] at h
    exact (List.mem_append.mp h).resolve_right (notMem_slashes hslash k)
  rcases u.name_cases with heq | heq <;> rw [heq] at htrimmed
  · exact htrimmed
  · rw [git_eq] at htrimmed
    exact (List.mem_append.mp htrimmed).resolve_right hgit

theorem notMem_text {c : Char} (hc : c ∈ [':', '@']) (h : c ∉ u.path.val) :
    c ∉ u.host.val ++ '/' :: u.name := by
  have hsep : c ∈ [':', '/', '@'] ∧ c ≠ '/' := by
    rcases List.mem_cons.mp hc with rfl | hc
    · decide
    · rw [List.mem_singleton.mp hc]
      decide
  intro hmem
  rcases List.mem_append.mp hmem with hmem | hmem
  · exact u.notMem_host hsep.1 hmem
  · rcases List.mem_cons.mp hmem with heq | hmem
    · exact hsep.2 heq
    · exact h (name_subset hmem)

namespace Clear

variable (h : u.Clear)

include h

theorem behind_eq : u.behind = u.spelling.separator :: trimEndMatches "/" u.path.val :=
  behind_of_trimmed h.port (trimmed_ne h.name_ne)

theorem colon_trimmed : ':' ∉ trimEndMatches "/" u.path.val := fun hmem =>
  h.colon ((trimEndMatches_isPrefix Repos.slash_ne _).subset hmem)

theorem not_hidden : ¬ u.Hidden := by
  rintro (hat | ⟨hsep, hscheme⟩)
  · exact h.at_sign hat
  · apply hscheme
    have hpre : ¬ [':', '/', '/'] <+: ':' :: trimEndMatches "/" u.path.val := by
      intro hpre
      have htail := (List.cons_prefix_cons.mp hpre).2
      exact h.slashes hsep (htail.trans (trimEndMatches_isPrefix Repos.slash_ne _))
    rw [h.behind_eq, hsep, Repos.colons, afterFirst,
      if_neg (by rwa [List.isPrefixOf_iff_prefix])]
    exact afterFirst_of_notMem h.colon_trimmed

theorem not_git : ¬ ".git".toList <:+ u.host.val ++ '/' :: u.name := by
  refine not_git_suffix (fun hsuffix => h.git ?_) _
  have hmap := hsuffix.map Char.toLower
  rw [git_eq] at hmap ⊢
  exact hmap

/-- **The normal form of a clear URL is its host and its path.** -/
theorem reduced_eq : Repos.reduced u.chars =
    u.host.val.map Char.toLower ++ '/' :: u.name.map Char.toLower := by
  have hreplace : replaceFirst ':' '/' u.behind = '/' :: trimEndMatches "/" u.path.val := by
    rw [h.behind_eq]
    rcases u.spelling.separator_cases with hsep | hsep <;> rw [hsep]
    · refine replaceFirst_of_notMem fun hmem => ?_
      rcases List.mem_cons.mp hmem with heq | hmem
      · exact absurd heq (by decide)
      · exact h.colon_trimmed hmem
    · exact replaceFirst_cons _ _ _
  have htrim : trimEndMatches ".git" (u.host.val ++ '/' :: trimEndMatches "/" u.path.val) =
      u.host.val ++ '/' :: u.name := by
    rcases u.name_cases with heq | heq <;> rw [heq]
    · exact trimEndMatches_eq_self Repos.git_ne h.not_git
    · have happend := trimEndMatches_append Repos.git_ne h.not_git 1
      rwa [List.replicate_one, List.flatten_singleton, List.append_assoc] at happend
  rw [reduced_of_shown h.not_hidden, hreplace, htrim, List.map_append, List.map_cons]
  rfl

theorem key_eq : u.key = (u.host.val.map Char.toLower, u.name.map Char.toLower) := by
  rw [key, h.port, List.append_nil]

/-- The normal form of a clear URL has nothing to remove. -/
theorem reduced_reduced : Repos.reduced (Repos.reduced u.chars) = Repos.reduced u.chars := by
  have hname : u.name.map Char.toLower ≠ [] := fun hnil => h.name_ne (List.map_eq_nil_iff.mp hnil)
  have htext : Repos.reduced u.chars = (u.host.val ++ '/' :: u.name).map Char.toLower := by
    rw [h.reduced_eq, List.map_append, List.map_cons]
    rfl
  have hcolon : ':' ∉ Repos.reduced u.chars := by
    rw [htext, mem_lower_iff (by decide)]
    exact notMem_text (by decide) h.colon
  have hat : '@' ∉ Repos.reduced u.chars := by
    rw [htext, mem_lower_iff (by decide)]
    exact notMem_text (by decide) h.at_sign
  have hslash : ¬ ['/'] <:+ u.name.map Char.toLower := fun hsuffix =>
    h.slash ((suffix_lower_iff (by decide)).mp hsuffix)
  rw [Repos.reduced_eq_lower _ hcolon hat _, h.reduced_eq, List.map_append, List.map_cons,
    lower_lower, lower_lower]
  · rfl
  · rw [h.reduced_eq]
    exact not_suffix_append (List.cons_ne_nil _ _) (not_suffix_append hname hslash ['/']) _
  · rw [h.reduced_eq]
    exact not_git_suffix h.git _

end Clear

/-! ## Telling two URLs apart -/

theorem chars_noSpace (u : CloneUrl) : ∀ c ∈ u.chars, isWhitespace c = false := by
  have hpart : ∀ {bad : List Char} (part : UrlPart bad), ∀ c ∈ part.val, isWhitespace c = false :=
    fun part c hc => (part.property c hc).1
  have hnil : ∀ c ∈ ([] : List Char), isWhitespace c = false :=
    fun _ hc => absurd hc List.not_mem_nil
  have hat : ∀ c ∈ ['@'], isWhitespace c = false := List.forall_mem_singleton.mpr rfl
  rw [chars]
  simp only [List.forall_mem_append, List.forall_mem_cons]
  cases u.spelling with
  | scp user =>
    have huser : ∀ c ∈ user.val ++ ['@'], isWhitespace c = false :=
      List.forall_mem_append.mpr ⟨hpart user, hat⟩
    exact ⟨hnil, huser, hpart u.host, hnil, rfl, hpart u.path⟩
  | url scheme userinfo port =>
    have hscheme : ∀ c ∈ scheme.val ++ "://".toList, isWhitespace c = false := by
      rw [Repos.colons, List.forall_mem_append, List.forall_mem_cons, List.forall_mem_cons,
        List.forall_mem_singleton]
      exact ⟨hpart scheme, rfl, rfl, rfl⟩
    refine ⟨hscheme, ?_, hpart u.host, ?_, rfl, hpart u.path⟩
    · cases userinfo with
      | none => exact hnil
      | some ui => exact List.forall_mem_append.mpr ⟨hpart ui, hat⟩
    · cases port with
      | none => exact hnil
      | some q => exact List.forall_mem_cons.mpr ⟨rfl, hpart q⟩

theorem sameRepo_iff (u v : CloneUrl) : Repos.sameRepo u.render v.render = true ↔
    Repos.reduced u.chars = Repos.reduced v.chars := by
  have hblank : isBlank u.render = false := by
    have hne : u.chars ≠ [] := fun hnil =>
      u.host_ne (List.append_eq_nil_iff.mp
        (List.append_eq_nil_iff.mp (List.append_eq_nil_iff.mp hnil).2).2).1
    rw [isBlank, render, trim_of_noSpace u.chars_noSpace]
    cases hc : u.chars with
    | nil => exact absurd hc hne
    | cons c cs => simp
  rw [Repos.sameRepo, hblank, render, render, Repos.normalize_ofList u.chars_noSpace,
    Repos.normalize_ofList v.chars_noSpace, Bool.not_false, Bool.true_and, decide_eq_true_eq,
    String.ofList_inj]

/-- **`same_repo` is right about two clear URLs.** -/
theorem told_of_clear (hu : u.Clear) (hv : v.Clear) : Told u v := by
  have hslash : ∀ w : CloneUrl, '/' ∉ w.host.val.map Char.toLower := fun w hmem =>
    w.notMem_host (by decide) ((mem_lower_iff (by decide)).mp hmem)
  rw [Told, sameRepo_iff, hu.reduced_eq, hv.reduced_eq, hu.key_eq, hv.key_eq, Prod.mk.injEq]
  constructor
  · intro heq
    exact Words.split_inj heq (hslash u) (hslash v)
  · rintro ⟨hhost, hname⟩
    rw [hhost, hname]

theorem reduced_noSpace {cs : List Char} (h : ∀ c ∈ cs, isWhitespace c = false) :
    ∀ c ∈ Repos.reduced cs, isWhitespace c = false := by
  intro c hc
  unfold Repos.reduced at hc
  simp only at hc
  obtain ⟨d, hd, rfl⟩ := List.mem_map.mp hc
  apply isWhitespace_toLower
  rcases mem_replaceFirst ((trimEndMatches_isPrefix Repos.git_ne _).subset hd) with rfl | hd
  · rfl
  have hd := (afterLast_suffix '@' _).subset hd
  have htrim := (trimEndMatches_isPrefix Repos.slash_ne cs).subset
  cases hfirst : afterFirst "://".toList (trimEndMatches "/" cs) with
  | none =>
    rw [hfirst, Option.getD_none] at hd
    exact h d (htrim hd)
  | some r =>
    rw [hfirst, Option.getD_some] at hd
    exact h d (htrim ((afterFirst_suffix hfirst).subset hd))

theorem normal_iff (u : CloneUrl) :
    Repos.normalize (Repos.normalize u.render) = Repos.normalize u.render ↔
      Repos.reduced (Repos.reduced u.chars) = Repos.reduced u.chars := by
  rw [render, Repos.normalize_ofList u.chars_noSpace,
    Repos.normalize_ofList (reduced_noSpace u.chars_noSpace), String.ofList_inj]

theorem settled_of_clear (h : u.Clear) : u.Settled where
  normal := (normal_iff u).mpr h.reduced_reduced
  clear _ hv := told_of_clear h hv
  hosts _ _ := told_of_clear h ⟨h.port, h.at_sign, h.colon, h.slashes, h.name_ne, h.slash, h.git⟩

/-! ## What is settled is clear -/

/-- The host with a `.git` behind it. -/
def gitHost (u : CloneUrl) : UrlPart [':', '/', '@'] :=
  ⟨u.host.val ++ ".git".toList, by
    rw [git_eq]
    refine List.forall_mem_append.mpr ⟨u.host.property, ?_⟩
    intro c hc
    simp only [List.mem_cons, List.not_mem_nil, or_false] at hc
    rcases hc with rfl | rfl | rfl | rfl <;> decide⟩

theorem gitHost_ne (u : CloneUrl) : u.gitHost.val ≠ [] := fun h =>
  u.host_ne (List.append_eq_nil_iff.mp h).1

/-- A settled URL is told from itself on a longer host. -/
theorem reduced_gitHost (h : u.Settled) :
    Repos.reduced (u.onHost u.gitHost u.gitHost_ne).chars ≠ Repos.reduced u.chars := by
  intro heq
  have hkey := (h.hosts u.gitHost u.gitHost_ne).mp ((sameRepo_iff _ _).mpr heq.symm)
  have hlen := congrArg (fun k => k.1.length) hkey
  have hhost : (u.onHost u.gitHost u.gitHost_ne).host.val = u.host.val ++ ['.', 'g', 'i', 't'] := by
    rw [← git_eq]
    rfl
  have hport : (u.onHost u.gitHost u.gitHost_ne).spelling.port = u.spelling.port := rfl
  simp only [key, hhost, hport, List.length_map, List.length_append, List.length_cons,
    List.length_nil] at hlen
  omega

theorem not_hidden_of_settled (h : u.Settled) : ¬ u.Hidden := fun hidden =>
  reduced_gitHost h (reduced_onHost hidden u.gitHost u.gitHost_ne)

theorem trimEndMatches_append_self (cs : List Char) :
    trimEndMatches ".git" (cs ++ ".git".toList) = trimEndMatches ".git" cs := by
  obtain ⟨hend, k, hk⟩ := trimEndMatches_spec Repos.git_ne cs
  have happend := trimEndMatches_append Repos.git_ne hend (k + 1)
  rwa [List.replicate_succ', List.flatten_append, List.flatten_singleton, ← List.append_assoc,
    ← hk] at happend

/-- Something stands behind the host of a settled URL. -/
theorem behind_ne_of_settled (h : u.Settled) : u.behind ≠ [] := by
  intro hnil
  apply reduced_gitHost h
  have hshown := not_hidden_of_settled h
  have hshown' : ¬ (u.onHost u.gitHost u.gitHost_ne).Hidden := hshown
  have hbehind : (u.onHost u.gitHost u.gitHost_ne).behind = [] := hnil
  rw [reduced_of_shown hshown, reduced_of_shown hshown', hbehind, hnil]
  change (trimEndMatches ".git" ((u.host.val ++ ".git".toList) ++ [])).map Char.toLower =
    (trimEndMatches ".git" (u.host.val ++ [])).map Char.toLower
  rw [List.append_nil, List.append_nil, trimEndMatches_append_self]

/-- A slash is read where the host ends. -/
theorem replaceFirst_behind (hne : u.behind ≠ []) :
    ∃ r, replaceFirst ':' '/' u.behind = '/' :: r := by
  have hhead : ∃ c r, u.behind = c :: r ∧ (c = ':' ∨ c = '/') := by
    unfold behind at hne ⊢
    have htail : ∀ r, trimEndMatches "/" (u.spelling.separator :: u.path.val) = r → r ≠ [] →
        ∃ c r', r = c :: r' ∧ (c = ':' ∨ c = '/') := by
      rintro r rfl hr
      have hpre := trimEndMatches_isPrefix Repos.slash_ne (u.spelling.separator :: u.path.val)
      cases hx : trimEndMatches "/" (u.spelling.separator :: u.path.val) with
      | nil => exact absurd hx hr
      | cons c r' =>
        rw [hx] at hpre
        have hc := (List.cons_prefix_cons.mp hpre).1
        refine ⟨c, r', rfl, ?_⟩
        rw [hc]
        exact u.spelling.separator_cases.symm
    cases hs : u.spelling with
    | scp user =>
      rw [hs] at hne htail
      exact htail _ rfl hne
    | url scheme userinfo port =>
      cases port with
      | none =>
        rw [hs] at hne htail
        exact htail _ rfl hne
      | some q => exact ⟨':', _, rfl, Or.inl rfl⟩
  obtain ⟨c, r, heq, rfl | rfl⟩ := hhead
  · exact ⟨r, by rw [heq, replaceFirst_cons]⟩
  · refine ⟨replaceFirst ':' '/' r, ?_⟩
    rw [heq, replaceFirst, if_neg (by decide)]

/-- The endings that are removed do not reach into the host. -/
theorem trimEndMatches_slash (xs ys : List Char) :
    ∃ r, trimEndMatches ".git" (xs ++ '/' :: ys) = xs ++ '/' :: r := by
  obtain ⟨-, k, hk⟩ := trimEndMatches_spec Repos.git_ne (xs ++ '/' :: ys)
  have hslash : '/' ∉ (List.replicate k ".git".toList).flatten := by
    intro hmem
    obtain ⟨l, hl, hmem⟩ := List.mem_flatten.mp hmem
    rw [(List.mem_replicate.mp hl).2, git_eq] at hmem
    exact absurd hmem (by decide)
  rcases List.append_eq_append_iff.mp hk with ⟨front, htrim, hfront⟩ | ⟨rest, hxs, hrest⟩
  · cases front with
    | nil =>
      rw [List.nil_append] at hfront
      rw [← hfront] at hslash
      exact absurd List.mem_cons_self hslash
    | cons c front =>
      rw [← (List.cons.inj hfront).1] at htrim
      exact ⟨front, htrim⟩
  · rw [hrest] at hslash
    exact absurd (List.mem_append_right rest List.mem_cons_self) hslash

/-- A clear URL on a host, with a path that is in its normal form. -/
def plain (host : UrlPart [':', '/', '@']) (h : host.val ≠ []) (path : UrlPart []) : CloneUrl where
  spelling := .url (.of "https".toList (by decide)) none none
  host := host
  host_ne := h
  path := path

theorem name_plain (host : UrlPart [':', '/', '@']) (h : host.val ≠ []) {path : UrlPart []}
    (hslash : ¬ ['/'] <:+ path.val) (hgit : ¬ ".git".toList <:+ path.val) :
    (plain host h path).name = path.val := by
  have hpath : trimEndMatches "/" path.val = path.val :=
    trimEndMatches_eq_self Repos.slash_ne (Repos.slash ▸ hslash)
  have hnot : ".git".toList.isSuffixOf path.val = false := by
    rw [Bool.eq_false_iff]
    exact fun hsuffix => hgit (List.isSuffixOf_iff_suffix.mp hsuffix)
  unfold name plain
  simp only [hpath, hnot, Bool.false_eq_true, if_false]

/-- The URL that a settled one is read as. -/
theorem read_of_settled (h : u.Settled) : ∃ v : CloneUrl, v.Clear ∧
    Repos.reduced v.chars = Repos.reduced u.chars ∧ v.host.val = u.host.val.map Char.toLower ∧
    v.name.map Char.toLower = v.name := by
  obtain ⟨r, hr⟩ := replaceFirst_behind (behind_ne_of_settled h)
  obtain ⟨s, hs⟩ := trimEndMatches_slash u.host.val r
  have hread : Repos.reduced u.chars =
      u.host.val.map Char.toLower ++ '/' :: s.map Char.toLower := by
    rw [reduced_of_shown (not_hidden_of_settled h), hr, hs, List.map_append, List.map_cons]
    rfl
  obtain ⟨hslash, hcolon, hat, hgit⟩ := Repos.fixed_of_reduced ((normal_iff u).mp h.normal)
  have hspace := reduced_noSpace u.chars_noSpace
  rw [hread] at hslash hcolon hat hgit hspace
  have htail : ∀ {c : Char}, c ∈ s.map Char.toLower →
      c ∈ u.host.val.map Char.toLower ++ '/' :: s.map Char.toLower := fun hc =>
    List.mem_append_right _ (List.mem_cons_of_mem '/' hc)
  have hsuffix : s.map Char.toLower <:+ u.host.val.map Char.toLower ++ '/' :: s.map Char.toLower :=
    (List.suffix_cons '/' _).trans (List.suffix_append _ _)
  have hne : s.map Char.toLower ≠ [] := by
    intro hnil
    rw [hnil] at hslash
    exact hslash (List.suffix_append _ _)
  have hhost : ∀ c ∈ u.host.val.map Char.toLower,
      isWhitespace c = false ∧ c ∉ [':', '/', '@'] := by
    intro c hc
    refine ⟨hspace c (List.mem_append_left _ hc), fun hsep => ?_⟩
    have hsmall : c.toNat < 65 := by
      simp only [List.mem_cons, List.not_mem_nil, or_false] at hsep
      rcases hsep with rfl | rfl | rfl <;> decide
    exact u.notMem_host hsep ((mem_lower_iff hsmall).mp hc)
  have hhost_ne : u.host.val.map Char.toLower ≠ [] := fun hnil =>
    u.host_ne (List.map_eq_nil_iff.mp hnil)
  let path : UrlPart [] := ⟨s.map Char.toLower, fun c hc => ⟨hspace c (htail hc), List.not_mem_nil⟩⟩
  let v := plain ⟨_, hhost⟩ hhost_ne path
  have hslash' : ¬ ['/'] <:+ path.val := fun hs' => hslash (hs'.trans hsuffix)
  have hgit' : ¬ ".git".toList <:+ path.val := fun hs' => hgit (hs'.trans hsuffix)
  have hname : v.name = s.map Char.toLower := name_plain _ hhost_ne hslash' hgit'
  have hlower : v.name.map Char.toLower = v.name := by rw [hname, lower_lower]
  have hclear : v.Clear :=
    { port := rfl
      at_sign := fun hmem => hat (htail hmem)
      colon := fun hmem => hcolon (htail hmem)
      slashes := fun hsep => absurd (show '/' = ':' from hsep) (by decide)
      name_ne := by rw [hname]; exact hne
      slash := by rw [hname]; exact hslash'
      git := by rw [hlower, hname]; exact hgit' }
  refine ⟨v, hclear, ?_, rfl, hlower⟩
  rw [hclear.reduced_eq, hlower, hname, hread]
  change (u.host.val.map Char.toLower).map Char.toLower ++ _ = _
  rw [lower_lower]

/-- The slashes in front of a path that is more than slashes are not removed. -/
theorem slashes_isPrefix (h : trimEndMatches "/" u.path.val ≠ []) (hpre : ['/', '/'] <+: u.path.val) :
    ['/', '/'] <+: trimEndMatches "/" u.path.val := by
  apply List.prefix_of_prefix_length_le hpre (trimEndMatches_isPrefix Repos.slash_ne _)
  by_contra hlen
  obtain ⟨c, hc⟩ : ∃ c, trimEndMatches "/" u.path.val = [c] := by
    apply List.length_eq_one_iff.mp
    have hpos := List.length_pos_iff.mpr h
    have hlt : ¬ 2 ≤ (trimEndMatches "/" u.path.val).length := hlen
    omega
  have hend := u.path_spec.1
  have hfirst := trimEndMatches_isPrefix Repos.slash_ne u.path.val
  obtain ⟨rest, hrest⟩ := hpre
  rw [hc] at hend hfirst
  rw [← hrest] at hfirst
  rw [(List.cons_prefix_cons.mp hfirst).1] at hend
  exact hend List.suffix_rfl

theorem clear_of_settled (h : u.Settled) : u.Clear := by
  obtain ⟨v, hv, hread, hhost, hname⟩ := read_of_settled h
  have hkey := (h.clear v hv).mp ((sameRepo_iff u v).mpr hread.symm)
  rw [hv.key_eq, key, Prod.mk.injEq, hname, hhost, lower_lower] at hkey
  obtain ⟨hports, hnames⟩ := hkey
  have hport : u.spelling.port = [] := by
    have hlen := congrArg List.length hports
    rw [List.length_map, List.length_append, List.length_map] at hlen
    exact List.length_eq_zero_iff.mp (by omega)
  have hne : u.name ≠ [] := by
    intro hnil
    rw [hnil] at hnames
    exact hv.name_ne hnames.symm
  have hslash : ¬ ['/'] <:+ u.name := by
    rw [← suffix_lower_iff (by decide), hnames]
    exact hv.slash
  have hcolon : ':' ∉ u.path.val := by
    intro hmem
    have hlower := (mem_lower_iff (by decide)).mpr (mem_name (by decide) (by decide) hmem)
    rw [hnames] at hlower
    exact hv.colon (name_subset hlower)
  have hslashes : u.spelling.separator = ':' → ¬ ['/', '/'] <+: u.path.val := by
    intro hsep hpre
    have hprefix := slashes_isPrefix (trimmed_ne hne) hpre
    obtain ⟨rest, hrest⟩ := hprefix
    refine not_hidden_of_settled h (Or.inr ⟨hsep, ?_⟩)
    rw [behind_of_trimmed hport (trimmed_ne hne), hsep, ← hrest, Repos.colons]
    exact Option.ne_none_iff_exists'.mpr ⟨rest, afterFirst_self ':' ['/', '/'] rest⟩
  exact
    { port := hport
      at_sign := fun hat => not_hidden_of_settled h (Or.inl hat)
      colon := hcolon
      slashes := hslashes
      name_ne := hne
      slash := hslash
      git := by rw [hnames, ← hname]; exact hv.git }

/-- **A URL is told from the clear ones, and from itself on other hosts, and its normal form is
normal, if and only if it is clear itself.** -/
theorem settled_iff_clear (u : CloneUrl) : u.Settled ↔ u.Clear :=
  ⟨clear_of_settled, settled_of_clear⟩

/-- **A clear URL can be named on every host.** -/
theorem exists_impostor (h : u.Clear) (host : UrlPart [':', '/', '@']) (hne : host.val ≠ []) :
    ∃ v : CloneUrl, v.host = host ∧ Repos.sameRepo u.render v.render = true := by
  have hpart : ∀ c ∈ '@' :: (u.host.val ++ '/' :: u.name), isWhitespace c = false ∧ c ∉ [] := by
    simp only [List.forall_mem_cons, List.forall_mem_append]
    refine ⟨⟨rfl, List.not_mem_nil⟩, ?_, ⟨rfl, List.not_mem_nil⟩, ?_⟩
    · exact fun c hc => ⟨(u.host.property c hc).1, List.not_mem_nil⟩
    · exact fun c hc => ⟨(u.path.property c (name_subset hc)).1, List.not_mem_nil⟩
  let v := plain host hne ⟨_, hpart⟩
  refine ⟨v, rfl, (sameRepo_iff u v).mpr ?_⟩
  have hlast : ¬ "/".toList <:+ ['/', '@'] ++ (u.host.val ++ '/' :: u.name) := by
    rw [Repos.slash]
    have hslash := not_suffix_append h.name_ne h.slash ['/']
    exact not_suffix_append (List.append_ne_nil_of_left_ne_nil u.host_ne _)
      (not_suffix_append (List.cons_ne_nil _ _) hslash _) _
  have hbehind : v.behind = ['/', '@'] ++ (u.host.val ++ '/' :: u.name) :=
    trimEndMatches_eq_self Repos.slash_ne hlast
  have hsep : ¬ v.spelling.separator = ':' := show ¬ '/' = ':' by decide
  have hread : afterLast '@' (v.spelling.creds ++ (v.host.val ++ v.behind)) =
      u.host.val ++ '/' :: u.name := by
    have hcreds : v.spelling.creds = [] := rfl
    have happend : v.host.val ++ (['/', '@'] ++ (u.host.val ++ '/' :: u.name)) =
        (v.host.val ++ ['/']) ++ '@' :: (u.host.val ++ '/' :: u.name) := by
      rw [List.append_assoc]
      rfl
    rw [hbehind, hcreds, List.nil_append, happend]
    exact afterLast_cons (notMem_text (by decide) h.at_sign) _
  unfold Repos.reduced
  simp only
  rw [stripped v, if_neg hsep, hread, replaceFirst_of_notMem (notMem_text (by decide) h.colon),
    trimEndMatches_eq_self Repos.git_ne h.not_git]
  have hread' := h.reduced_eq
  unfold Repos.reduced at hread'
  rw [hread', List.map_append, List.map_cons]
  rfl

end CloneUrl

section Impostor

private def github : CloneUrl :=
  CloneUrl.plain (.of "github.com".toList (by decide)) (by decide +kernel)
    (.of "me/app".toList (by decide))

private def impostor : CloneUrl :=
  CloneUrl.plain (.of "evil.example".toList (by decide)) (by decide)
    (.of "x@github.com/me/app".toList (by decide))

/-- A path with an `@` in it is a repository of another host. -/
theorem impostor_accepted : ¬ ∀ u v : CloneUrl, u.Told v := by
  intro hall
  have hsame : Repos.sameRepo github.render impostor.render = true := by decide +kernel
  have hkey : github.key ≠ impostor.key := by decide +kernel
  exact hkey ((hall github impostor).mp hsame)

example : impostor.render = "https://evil.example/x@github.com/me/app" := by decide +kernel

end Impostor

end HeyoCi
