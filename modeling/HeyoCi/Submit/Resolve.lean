import HeyoCi.Lib.Dict
import HeyoCi.Lib.Glob
import HeyoCi.Lib.Loop
import HeyoCi.Lib.Table
import HeyoCi.Steps.Masker
import HeyoCi.Submit.Prefix
import HeyoCi.Submit.Trim

/-!
# The secrets that a job gets

* `Secrets.Like`, `Secrets.Listed`: the pattern match of the store, whose patterns take `_` for any
  character, and what is listed under a prefix;
* `Secrets.Api`, `Secrets.resolve`: the store as it is called, and the resolution;
* `Secrets.Below`, **`Secrets.leafName_eq_some`**: what is listed has a name only below the prefix;
* `Secrets.Serves`: the store answers; **`Secrets.resolve_spec`**: what is resolved then;
* `Secrets.Exact`: every entry below the prefix is there by a name of its own, and nothing else is;
* **`Secrets.resolve_exact_iff`**: so it is exactly when the last segments tell the entries apart.
-/

namespace HeyoCi.Secrets

/-! ## The listing -/

/-- A character of a pattern of `LIKE`. -/
def likePiece (c : Char) : Glob.Piece Char :=
  if c = '%' then .run else if c = '_' then .one else .letter c

/-- `text LIKE pattern`, for a pattern without a backslash. -/
def Like (pattern text : String) : Prop :=
  Glob.Matches (pattern.toList.map likePiece) text.toList

instance (pattern text : String) : Decidable (Like pattern text) :=
  inferInstanceAs (Decidable (Glob.Matches _ _))

/-- `path = pre OR path LIKE pre || '/%'`. -/
def Listed (pre path : String) : Prop := path = pre ∨ Like (pre ++ "/%") path

instance (pre path : String) : Decidable (Listed pre path) := inferInstanceAs (Decidable (_ ∨ _))

/-! ## The resolution -/

/-- What `list` says of an entry. -/
structure SecretMetadata where
  path : String
  tags : List String
  deriving Repr, DecidableEq

inductive SecretsError where
  | transport (e : String)
  | api (e : String)
  | decode (e : String)
  | notText (path : String)
  | unreadable (path reason : String)
  deriving Repr, DecidableEq

/-- What comes of the calls of heyosecret: `GET /v1/secrets` with a prefix, and
`POST /v1/secrets/read` with a path. -/
structure Api where
  list : String → Except SecretsError (List SecretMetadata)
  read : String → Except SecretsError String

/-- The tag of an entry that is no secret. -/
def publicTag : String := "public"

def SecretMetadata.isPublic (entry : SecretMetadata) : Bool := entry.tags.contains publicTag

/-- An entry and its value, put among what is resolved under a prefix. -/
def add (pre : String) (out : Resolved) (fetched : SecretMetadata × String) : Resolved :=
  match leafName fetched.1.path pre with
  | none => out
  | some name => if fetched.1.isPublic then { out with vars := Dict.insert name fetched.2 out.vars }
    else { out with secrets := Dict.insert name fetched.2 out.secrets }

/-- `resolve`: nothing where no store is configured. -/
def resolve (api : Option Api) (pre : String) : Except SecretsError Resolved := match api with
  | none => .ok ⟨[], []⟩
  | some api => (api.list pre).bind fun listed =>
    (Loop.mapEach (fun entry => (api.read entry.path).map fun value => (entry, value)) listed).map
      fun fetched => fetched.foldl (add pre) ⟨[], []⟩

/-! ## Below a prefix -/

/-- A path lies strictly below a prefix, segment by segment. -/
def Below (pre path : String) : Prop := pre.toList ++ ['/'] <+: path.toList

instance (pre path : String) : Decidable (Below pre path) :=
  inferInstanceAs (Decidable (_ <+: _))

theorem notMem_pathPrefix {c : Char} (hc : isPathChar c = false) (hslash : c ≠ '/') (wf env : String) :
    c ∉ (pathPrefix wf env).toList := by
  have hname : ∀ s, c ∉ (sanitize s).toList := by
    intro s hmem
    rw [toList_sanitize, List.mem_map] at hmem
    obtain ⟨d, -, rfl⟩ := hmem
    rw [isPathChar_pathChar] at hc
    cases hc
  have hci : c ∉ "ci/".toList := by
    intro hmem
    have hcases : c = 'c' ∨ c = 'i' ∨ c = '/' := by simpa using hmem
    rcases hcases with rfl | rfl | rfl
    · exact absurd hc (by decide)
    · exact absurd hc (by decide)
    · exact hslash rfl
  rw [toList_pathPrefix]
  simp only [List.mem_append, List.mem_cons, not_or]
  exact ⟨⟨hci, hname wf⟩, hslash, hname env⟩

theorem like_self (cs : List Char) : Glob.Matches (cs.map likePiece) cs := by
  induction cs with
  | nil => rfl
  | cons c cs ih =>
    rw [List.map_cons, likePiece]
    split_ifs with hrun hone
    · exact ⟨[c], cs, rfl, ih⟩
    · exact ⟨c, cs, rfl, ih⟩
    · exact ⟨cs, rfl, ih⟩

theorem map_likePiece (pre : String) : (pre ++ "/%").toList.map likePiece =
    pre.toList.map likePiece ++ [.letter '/', .run] := by
  rw [String.toList_append, List.map_append]
  rfl

/-- What lies below a prefix is listed. -/
theorem listed_of_below {pre path : String} (h : Below pre path) : Listed pre path := by
  obtain ⟨rest, hrest⟩ := h
  rw [List.append_assoc, List.singleton_append] at hrest
  refine Or.inr ?_
  rw [Like, map_likePiece, ← hrest]
  exact (like_self pre.toList).append ⟨rest, rfl, rest, [], (List.append_nil rest).symm, rfl⟩

/-- Behind a prefix without a star, what is listed goes on with a slash. -/
theorem below_of_listed {pre path : String} (hpre : '%' ∉ pre.toList) (h : Listed pre path)
    (hne : path ≠ pre) (hstrip : pre.toList <+: path.toList) : Below pre path := by
  rcases h with h | h
  · exact absurd h hne
  · rw [Like, map_likePiece] at h
    have hnorun : ∀ x ∈ pre.toList.map likePiece, x ≠ .run := by
      intro x hx
      obtain ⟨c, hc, rfl⟩ := List.mem_map.mp hx
      have hstar : c ≠ '%' := fun heq => hpre (heq ▸ hc)
      rw [likePiece, if_neg hstar]
      split_ifs <;> intro h' <;> cases h'
    obtain ⟨taken, rest, hsplit, hlen, hrest⟩ := Glob.split_of_matches_append hnorun h
    obtain ⟨rest', rfl, -⟩ := hrest
    obtain ⟨tail, htail⟩ := hstrip
    rw [List.length_map] at hlen
    have heq := List.append_inj (htail.trans hsplit) hlen.symm
    rw [Below, ← htail, heq.2]
    exact ⟨rest', by simp⟩

/-- The last segment of a path. -/
def lastSegment (path : String) : String := String.ofList (Text.afterLast '/' path.toList)

/-- There is something else than slashes behind the prefix. -/
def HasSegment (pre path : String) : Prop := ∃ c ∈ path.toList.drop pre.toList.length, c ≠ '/'

instance (pre path : String) : Decidable (HasSegment pre path) :=
  List.decidableBEx _ _

theorem leafName_of_below {pre path : String} (h : Below pre path) :
    leafName path pre = if HasSegment pre path then some (lastSegment path) else none := by
  obtain ⟨rest, hrest⟩ := h
  rw [List.append_assoc, List.singleton_append] at hrest
  have hstrip : Text.stripPrefix pre path = some (String.ofList ('/' :: rest)) := by
    rw [Text.stripPrefix_eq_some, ← hrest, String.toList_ofList]
  have hdrop : path.toList.drop pre.toList.length = '/' :: rest := by
    rw [← hrest, List.drop_left]
  rw [leafName, hstrip, Option.bind_some, String.toList_ofList]
  simp only [List.isEmpty_iff]
  have hseg : HasSegment pre path ↔ ¬ ('/' :: rest).dropWhile (· = '/') = [] := by
    rw [HasSegment, hdrop, List.dropWhile_eq_nil_iff]
    simp
  by_cases hnil : ('/' :: rest).dropWhile (· = '/') = []
  · rw [if_pos hnil, if_neg (fun hs => hseg.mp hs hnil)]
  · rw [if_neg hnil, if_pos (hseg.mpr hnil), lastSegment]
    rw [Text.afterLast_dropWhile, ← hrest, Text.afterLast_behind]
    exact congrArg (some <| String.ofList ·) (Text.afterLast_behind '/' [] rest)

/-- **What is listed has a name exactly where it lies below the prefix and has a segment there.** -/
theorem leafName_eq_some {pre path name : String} (hpre : '%' ∉ pre.toList) (h : Listed pre path) :
    leafName path pre = some name ↔
      Below pre path ∧ HasSegment pre path ∧ lastSegment path = name := by
  by_cases hbelow : Below pre path
  · rw [leafName_of_below hbelow, and_iff_right hbelow]
    split_ifs with hseg
    · rw [Option.some_inj, and_iff_right hseg]
    · exact iff_of_false (fun hn => by cases hn) fun hn => hseg hn.1
  · refine iff_of_false (fun hname => ?_) fun hn => hbelow hn.1
    obtain ⟨rest, hstrip, hrest⟩ := Option.bind_eq_some_iff.mp hname
    rw [Text.stripPrefix_eq_some] at hstrip
    refine hbelow (below_of_listed hpre h (fun heq => ?_) ⟨_, hstrip.symm⟩)
    rw [heq, List.self_eq_append_right] at hstrip
    rw [hstrip] at hrest
    cases hrest

/-! ## What is resolved -/

/-- An entry of the store. -/
structure StoredSecret where
  path : String
  tags : List String
  value : String
  deriving Repr, DecidableEq

def StoredSecret.metadata (e : StoredSecret) : SecretMetadata := ⟨e.path, e.tags⟩

/-- The store lists what is under a prefix, and reads what it lists. -/
structure Serves (api : Api) (store : Table StoredSecret.path) (pre : String) : Prop where
  list : ∃ listed, api.list pre = .ok listed ∧
    ∀ m, m ∈ listed ↔ ∃ e ∈ store.rows, Listed pre e.path ∧ e.metadata = m
  read : ∀ e ∈ store.rows, Listed pre e.path → api.read e.path = .ok e.value

section Spec

variable {api : Api} {store : Table StoredSecret.path} {pre : String}

/-- What is found by a name, which is one of a variable or of a secret. -/
def exposed (out : Resolved) (name : Bool × String) : Option String :=
  (if name.1 then out.vars else out.secrets).lookup name.2

/-- The names and values of the entries of one kind. -/
def named (pre : String) (isPublic : Bool) (fetched : List (SecretMetadata × String)) :
    List (String × String) :=
  fetched.filterMap fun f =>
    if f.1.isPublic = isPublic then (leafName f.1.path pre).map (·, f.2) else none

theorem foldl_add (fetched : List (SecretMetadata × String)) (out : Resolved) :
    fetched.foldl (add pre) out = ⟨Dict.extend out.secrets (named pre false fetched),
      Dict.extend out.vars (named pre true fetched)⟩ := by
  induction fetched generalizing out with
  | nil => rfl
  | cons f fetched ih =>
    rw [List.foldl_cons, ih]
    simp only [named, List.filterMap_cons]
    cases hleaf : leafName f.1.path pre with
    | none => simp only [add, hleaf, Option.map_none, ite_self]
    | some name =>
      cases hpub : f.1.isPublic <;> simp only [add, hleaf, hpub] <;> rfl

theorem exposed_foldl (fetched : List (SecretMetadata × String)) (name : Bool × String) :
    exposed (fetched.foldl (add pre) ⟨[], []⟩) name =
      (Dict.extend [] (named pre name.1 fetched)).lookup name.2 := by
  rw [foldl_add, exposed]
  cases name.1 <;> rfl

theorem mem_named {isPublic : Bool} {fetched : List (SecretMetadata × String)} {name v : String} :
    (name, v) ∈ named pre isPublic fetched ↔
      ∃ f ∈ fetched, f.1.isPublic = isPublic ∧ leafName f.1.path pre = some name ∧ f.2 = v := by
  rw [named, List.mem_filterMap]
  refine exists_congr fun f => and_congr_right fun _ => ?_
  split_ifs with hpub
  · rw [and_iff_right hpub, Option.map_eq_some_iff]
    simp only [Prod.mk.injEq]
    constructor
    · rintro ⟨_, hleaf, rfl, rfl⟩
      exact ⟨hleaf, rfl⟩
    · exact fun h => ⟨name, h.1, rfl, h.2⟩
  · exact iff_of_false (fun h => by cases h) fun h => hpub h.1

/-- The name of an entry: of a variable or of a secret, its last segment. -/
def StoredSecret.name (e : StoredSecret) : Bool × String := (e.metadata.isPublic, lastSegment e.path)

/-- **What is exposed are entries below the prefix by their names, and every name has its entry.** -/
theorem resolve_spec (h : Serves api store pre) (hpre : '%' ∉ pre.toList) :
    ∃ out, resolve (some api) pre = .ok out ∧
      (∀ name v, exposed out name = some v → ∃ e ∈ store.rows, Below pre e.path ∧
        HasSegment pre e.path ∧ e.name = name ∧ e.value = v) ∧
      ∀ e ∈ store.rows, Below pre e.path → HasSegment pre e.path → exposed out e.name ≠ none := by
  obtain ⟨listed, hlist, hmem⟩ := h.list
  let value (m : SecretMetadata) : String := ((store.find m.path).map (·.value)).getD ""
  have hvalue : ∀ e ∈ store.rows, value e.metadata = e.value := by
    intro e he
    simp only [value, StoredSecret.metadata, store.find_of_mem he, Option.map_some, Option.getD_some]
  have hfetch : Loop.mapEach (fun m => (api.read m.path).map fun value => (m, value)) listed =
      .ok (listed.map fun m => (m, value m)) := by
    rw [Loop.mapEach_ok_iff, List.map_map, List.map_inj_left]
    intro m hm
    obtain ⟨e, he, hl, rfl⟩ := (hmem m).mp hm
    rw [Function.comp_apply, hvalue e he]
    exact congrArg (Except.map _) (h.read e he hl)
  refine ⟨_, by rw [resolve, hlist, Except.bind, hfetch, Except.map], fun name v hv => ?_,
    fun e he hbelow hseg => ?_⟩
  · rw [exposed_foldl] at hv
    obtain ⟨f, hf, hpub, hleaf, hfv⟩ := mem_named.mp (Dict.mem_of_lookup_extend hv)
    obtain ⟨m, hm, rfl⟩ := List.mem_map.mp hf
    obtain ⟨e, he, hl, rfl⟩ := (hmem m).mp hm
    obtain ⟨hbelow, hseg, hlast⟩ := (leafName_eq_some hpre hl).mp hleaf
    exact ⟨e, he, hbelow, hseg, Prod.ext hpub hlast, (hvalue e he).symm.trans hfv⟩
  · have hl := listed_of_below hbelow
    rw [exposed_foldl]
    refine Dict.lookup_extend_ne_none (v := e.value) (mem_named.mpr ?_)
    refine ⟨_, List.mem_map.mpr ⟨e.metadata, (hmem _).mpr ⟨e, he, hl, rfl⟩, rfl⟩, rfl, ?_,
      hvalue e he⟩
    exact (leafName_eq_some hpre hl).mpr ⟨hbelow, hseg, rfl⟩

/-! ## Exactness -/

/-- **The entries below a prefix are exposed by names of their own**, as variables or as secrets, and
nothing else is. -/
def Exact (pre : String) (store : Table StoredSecret.path) (out : Resolved) : Prop :=
  ∃ name : StoredSecret → Bool × String,
    (∀ e ∈ store.rows, Below pre e.path → (name e).1 = e.metadata.isPublic) ∧
    (∀ e ∈ store.rows, ∀ e' ∈ store.rows, Below pre e.path → Below pre e'.path →
      name e = name e' → e = e') ∧
    ∀ x v, exposed out x = some v ↔ ∃ e ∈ store.rows, Below pre e.path ∧ name e = x ∧ e.value = v

/-- The last segments tell the entries below a prefix apart, those of variables and those of secrets,
and every one has a segment there. -/
def Separate (pre : String) (store : Table StoredSecret.path) : Prop :=
  (∀ e ∈ store.rows, Below pre e.path → HasSegment pre e.path) ∧
    ∀ e ∈ store.rows, ∀ e' ∈ store.rows, Below pre e.path → Below pre e'.path →
      e.name = e'.name → e = e'

instance (pre : String) (store : Table StoredSecret.path) : Decidable (Separate pre store) :=
  @instDecidableAnd _ _ (List.decidableBAll _ _) (List.decidableBAll _ _)

theorem separate_of_exact {out : Resolved}
    (hin : ∀ name v, exposed out name = some v → ∃ e ∈ store.rows, Below pre e.path ∧
      HasSegment pre e.path ∧ e.name = name ∧ e.value = v) (h : Exact pre store out) :
    Separate pre store := by
  obtain ⟨name, hkind, hinj, hexact⟩ := h
  -- the entries of one kind, whose own names are counted against those of `name`
  let below (isPublic : Bool) : Finset StoredSecret :=
    store.rows.toFinset.filter fun e => Below pre e.path ∧ e.metadata.isPublic = isPublic
  let own (e : StoredSecret) : Option String :=
    if HasSegment pre e.path then some e.name.2 else none
  have hmem : ∀ isPublic e, e ∈ below isPublic ↔
      e ∈ store.rows ∧ Below pre e.path ∧ e.metadata.isPublic = isPublic := by
    intro isPublic e
    rw [Finset.mem_filter, List.mem_toFinset]
  have hown : ∀ isPublic, Set.InjOn own (below isPublic) ∧ ∀ e ∈ below isPublic, own e ≠ none := by
    intro isPublic
    apply Dict.injOn_of_named fun e => (name e).2
    · intro e he e' he' heq
      obtain ⟨he, hb, hpub⟩ := (hmem _ e).mp he
      obtain ⟨he', hb', hpub'⟩ := (hmem _ e').mp he'
      refine hinj e he e' he' hb hb' (Prod.ext ?_ heq)
      rw [hkind e he hb, hkind e' he' hb', hpub, hpub']
    · intro e he
      obtain ⟨he, hb, hpub⟩ := (hmem _ e).mp he
      obtain ⟨e', he', hb', hseg', hname, -⟩ :=
        hin _ _ ((hexact (name e) e.value).mpr ⟨e, he, hb, rfl, rfl⟩)
      refine ⟨e', (hmem _ e').mpr ⟨he', hb', ?_⟩, ?_⟩
      · rw [← hpub, ← hkind e he hb, ← hname]
        rfl
      · rw [← hname]
        exact if_pos hseg'
  have hseg : ∀ e ∈ store.rows, Below pre e.path → HasSegment pre e.path := by
    intro e he hb
    by_contra hseg
    exact (hown _).2 e ((hmem _ e).mpr ⟨he, hb, rfl⟩) (if_neg hseg)
  refine ⟨hseg, fun e he e' he' hb hb' heq => ?_⟩
  have hpub : e.metadata.isPublic = e'.metadata.isPublic := congrArg Prod.fst heq
  refine (hown _).1 ((hmem _ e).mpr ⟨he, hb, rfl⟩) ((hmem _ e').mpr ⟨he', hb', hpub.symm⟩) ?_
  simp only [own]
  rw [if_pos (hseg e he hb), if_pos (hseg e' he' hb'), heq]

theorem exact_of_separate {out : Resolved}
    (hin : ∀ name v, exposed out name = some v → ∃ e ∈ store.rows, Below pre e.path ∧
      HasSegment pre e.path ∧ e.name = name ∧ e.value = v)
    (hall : ∀ e ∈ store.rows, Below pre e.path → HasSegment pre e.path → exposed out e.name ≠ none)
    (h : Separate pre store) : Exact pre store out := by
  refine ⟨StoredSecret.name, fun _ _ _ => rfl, h.2, fun x v => ⟨fun hx => ?_, ?_⟩⟩
  · obtain ⟨e, he, hb, -, hname, hv⟩ := hin x v hx
    exact ⟨e, he, hb, hname, hv⟩
  · rintro ⟨e, he, hb, rfl, rfl⟩
    obtain ⟨v, hv⟩ := Option.ne_none_iff_exists'.mp (hall e he hb (h.1 e he hb))
    obtain ⟨e', he', hb', -, hname, rfl⟩ := hin _ _ hv
    rw [hv, h.2 e' he' e he hb' hb hname]

end Spec

/-- **What is resolved under the prefix of a workflow and an environment is of entries below it, and
is exactly these entries if and only if their last segments tell them apart.** -/
theorem resolve_exact_iff {api : Api} {store : Table StoredSecret.path} {wf env : String}
    (h : Serves api store (pathPrefix wf env)) :
    ∃ out, resolve (some api) (pathPrefix wf env) = .ok out ∧
      (∀ name v, exposed out name = some v →
        ∃ e ∈ store.rows, Below (pathPrefix wf env) e.path ∧ e.name = name ∧ e.value = v) ∧
      (Exact (pathPrefix wf env) store out ↔ Separate (pathPrefix wf env) store) := by
  have hstar : '%' ∉ (pathPrefix wf env).toList := notMem_pathPrefix (by decide) (by decide) wf env
  obtain ⟨out, hout, hin, hall⟩ := resolve_spec h hstar
  refine ⟨out, hout, fun name v hv => ?_, separate_of_exact hin, exact_of_separate hin hall⟩
  obtain ⟨e, he, hb, -, hname, hvalue⟩ := hin name v hv
  exact ⟨e, he, hb, hname, hvalue⟩

/-! ## A store -/

/-- The calls, answered from a store. -/
def Api.of (store : Table StoredSecret.path) : Api where
  list pre := .ok ((store.rows.filter fun e => Listed pre e.path).map StoredSecret.metadata)
  read path := match store.find path with
    | some e => .ok e.value
    | none => .error (.unreadable path "404 Not Found")

theorem serves_of (store : Table StoredSecret.path) (pre : String) : Serves (.of store) store pre where
  list := by
    refine ⟨_, rfl, fun m => ?_⟩
    rw [List.mem_map]
    refine exists_congr fun e => ?_
    rw [List.mem_filter, decide_eq_true_eq, and_assoc]
  read := by
    intro e he _
    rw [Api.of]
    simp only [store.find_of_mem he]

/-- A secret, a variable, and a secret of another workflow, which the prefix of `a_b` lists too. -/
def shelf : Table StoredSecret.path where
  rows := [⟨"ci/a_b/prod/KEY", [], "k"⟩, ⟨"ci/a_b/prod/db/URL", ["public"], "u"⟩,
    ⟨"ci/axb/prod/KEY", [], "x"⟩]
  nodup := by decide

theorem shelf_exact : ∃ out, resolve (some (.of shelf)) (pathPrefix "a_b" "prod") = .ok out ∧
    Listed (pathPrefix "a_b" "prod") "ci/axb/prod/KEY" ∧ Exact (pathPrefix "a_b" "prod") shelf out := by
  obtain ⟨out, hout, -, hexact⟩ := resolve_exact_iff (serves_of shelf (pathPrefix "a_b" "prod"))
  exact ⟨out, hout, by decide, hexact.mpr (by decide)⟩

/-- Two secrets of one last segment. -/
def doubled : Table StoredSecret.path where
  rows := [⟨"ci/app/prod/URL", [], "one"⟩, ⟨"ci/app/prod/db/URL", [], "two"⟩]
  nodup := by decide

/-- `ci/app/prod/URL` is lost behind `ci/app/prod/db/URL`. -/
theorem leaf_clash : ¬ ∀ (api : Api) (store : Table StoredSecret.path) (wf env : String),
    Serves api store (pathPrefix wf env) →
    ∃ out, resolve (some api) (pathPrefix wf env) = .ok out ∧
      Exact (pathPrefix wf env) store out := by
  intro h
  obtain ⟨out, hout, hexact⟩ := h (.of doubled) doubled "app" "prod" (serves_of _ _)
  obtain ⟨out', hout', hin, -⟩ := resolve_spec (serves_of doubled (pathPrefix "app" "prod"))
    (notMem_pathPrefix (by decide) (by decide) _ _)
  rw [hout, Except.ok.injEq] at hout'
  subst hout'
  have hsep := separate_of_exact hin hexact
  revert hsep
  decide

end HeyoCi.Secrets
