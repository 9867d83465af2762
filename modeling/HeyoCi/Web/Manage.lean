import HeyoCi.Lib.Table
import HeyoCi.Submit.Trim

/-!
# Who may manage repositories

The routes that register a repository and mint its tokens admit the requests of an admin, and refuse
those that another site makes in the admin's name.

* `HeaderMap`, `Identity.fromHeaders`: a request, and who app-lb says it is from;
* `User`, `upsertUser`: the stored roles; **`role_after_iff`**: who is an admin after any history;
* `checkOrigin`, `mayManage`: the checks of the routes;
* `SameSite`, `Authorized`: what an admitted request has to be; `listed_of_mayManage`;
* `OriginChecked`, **`mayManage_guarded_iff`**: the values of `Origin` with which every admitted
  request is that;
* `null_origin_admitted`: a request of a sandboxed page.
-/

namespace HeyoCi

/-! ## Requests -/

/-- The headers of a request, with their names in small letters and their values in bytes. -/
abbrev HeaderMap := List (String × List UInt8)

/-- The first value of a header. -/
def HeaderMap.get (headers : HeaderMap) (name : String) : Option (List UInt8) := headers.lookup name

/-- All values of a header. -/
def HeaderMap.values (headers : HeaderMap) (name : String) : List (List UInt8) :=
  (headers.filter fun h => h.1 = name).map Prod.snd

/-- `HeaderValue::to_str`: a value of visible ASCII characters and tabs. -/
def headerStr (value : List UInt8) : Option String :=
  if value.all fun b => (32 ≤ b && b < 127) || b = 9 then
    some (String.ofList (value.map fun b => Char.ofNat b.toNat))
  else none

theorem get_eq_head (headers : HeaderMap) (name : String) :
    headers.get name = (headers.values name).head? := by
  unfold HeaderMap.get HeaderMap.values
  induction headers with
  | nil => rfl
  | cons h headers ih =>
    rw [List.lookup_cons, List.filter_cons]
    by_cases hname : h.1 = name
    · rw [hname, beq_self_eq_true, decide_eq_true rfl]
      rfl
    · have hbeq : (name == h.1) = false := beq_false_of_ne (Ne.symm hname)
      rw [hbeq, decide_eq_false hname]
      exact ih

structure Identity where
  /-- The stable id of a person. -/
  subject : String
  email : String
  name : Option String
  deriving Repr, DecidableEq

/-- `Identity::from_headers`. -/
def Identity.fromHeaders (headers : HeaderMap) : Option Identity :=
  let get name := (((headers.get name).bind headerStr).map Text.trim).filter fun s => !s.isEmpty
  (get "x-auth-request-user").bind fun subject =>
    (get "x-auth-request-email").map fun email => ⟨subject, email, get "x-auth-request-name"⟩

/-! ## Roles -/

inductive Role where
  | viewer
  | admin
  deriving Repr, DecidableEq

/-- A row of `ci_user`. -/
structure User where
  subject : String
  email : String
  name : Option String
  role : Role
  deriving Repr, DecidableEq

abbrev Users := Table User.subject

/-- The email of a person is on the list of admins, whose entries are in small letters. -/
def listed (email : String) (adminEmails : List String) : Bool :=
  adminEmails.any fun a => a = String.ofList (email.toList.map Char.toLower)

/-- `ON CONFLICT (subject) DO UPDATE`: a role is raised, and never lowered. -/
def promote (row : User) : Table.Update User.subject where
  hits u := u.subject = row.subject
  set u := { u with
    email := row.email
    name := row.name
    role := if row.role = .admin then .admin else u.role }
  key_set _ := rfl

/-- A person who was seen, and the list of admins at that time. -/
structure Seen where
  subject : String
  email : String
  name : Option String
  adminEmails : List String
  deriving Repr, DecidableEq

/-- The row that is inserted. -/
def Seen.row (s : Seen) : User :=
  ⟨s.subject, s.email, s.name, if listed s.email s.adminEmails then .admin else .viewer⟩

/-- `upsert_user`. -/
def upsertUser (users : Users) (s : Seen) : Users := users.upsert s.row (promote s.row)

/-- The stored role of a person. -/
def roleOf (users : Users) (subject : String) : Option Role := (users.find subject).map (·.role)

theorem roleOf_upsertUser (users : Users) (s : Seen) (subject : String) :
    roleOf (upsertUser users s) subject = some .admin ↔
      roleOf users subject = some .admin ∨
        (s.subject = subject ∧ listed s.email s.adminEmails = true) := by
  have hhits : ∀ u : User, (promote s.row).hits u = true → u.subject = s.row.subject :=
    fun u hu => of_decide_eq_true hu
  rw [roleOf, upsertUser, Table.find_upsert hhits]
  have hsubject : s.row.subject = s.subject := rfl
  rw [hsubject]
  split_ifs with heq
  · rw [Option.map_some, Option.some_inj, roleOf]
    have hfound : ∀ u, users.find subject = some u → (promote s.row).row u = (promote s.row).set u :=
      fun u hu => Table.Update.row_of_hits (decide_eq_true ((Table.key_of_find hu).trans heq.symm))
    cases hf : users.find subject with
    | none =>
      rw [Option.elim_none, Option.map_none]
      cases hl : listed s.email s.adminEmails <;> simp [Seen.row, hl, heq]
    | some u =>
      rw [Option.elim_some, hfound u hf, Option.map_some, Option.some_inj]
      cases hl : listed s.email s.adminEmails <;> simp [promote, Seen.row, hl, heq]
  · rw [roleOf]
    simp [heq]

/-- The table after some people were seen. -/
def Users.after (users : Users) (history : List Seen) : Users := history.foldl upsertUser users

/-- **An admin is who was one before, or was on the list when it was seen.** -/
theorem role_after_iff (users : Users) (history : List Seen) (subject : String) :
    roleOf (users.after history) subject = some .admin ↔
      roleOf users subject = some .admin ∨
        ∃ s ∈ history, s.subject = subject ∧ listed s.email s.adminEmails = true := by
  induction history generalizing users with
  | nil => simp [Users.after]
  | cons s history ih =>
    have hafter : users.after (s :: history) = (upsertUser users s).after history := rfl
    rw [hafter, ih, roleOf_upsertUser, List.exists_mem_cons_iff, or_assoc]

/-! ## The checks -/

/-- The part of the configuration that the routes read. -/
structure WebConfig where
  publicUrl : String
  adminEmails : List String

/-- A refusal: its status, and the text of its page. -/
structure Refused where
  status : Nat
  message : String
  deriving Repr, DecidableEq

/-- The text of `Origin` that is compared, if there is one. -/
def originText (value : Option (List UInt8)) : Option String :=
  ((value.bind headerStr).map Text.trim).filter fun o => !o.isEmpty && o != "null"

/-- The text is taken for this app. -/
def ownOrigin (publicUrl origin : String) : Bool :=
  String.ofList (Text.trimEndMatches "/" origin.toList) = publicUrl

/-- `check_origin`. -/
def checkOrigin (publicUrl : String) (headers : HeaderMap) : Except Refused Unit :=
  match originText (headers.get "origin") with
  | none => .ok ()
  | some origin => if ownOrigin publicUrl origin then .ok () else
    .error ⟨403, "This request came from another site. If it came from this dashboard, " ++
      "CI_PUBLIC_URL does not match the address the browser is using — set it to " ++
      "the URL people actually visit."⟩

/-- `may_manage`, with the error of the store if it has one. -/
def mayManage (config : WebConfig) (headers : HeaderMap) (store : Option String) (users : Users) :
    Except Refused (Option Identity) × Users :=
  match checkOrigin config.publicUrl headers with
  | .error e => (.error e, users)
  | .ok () => match Identity.fromHeaders headers with
    | none => if config.adminEmails.isEmpty then (.ok none, users) else
      (.error ⟨401, "This request carries no identity, and this installation names its admins in " ++
        "CI_ADMIN_EMAILS. Reach this page through the app-lb gate that forwards " ++
        "x-auth-request-user."⟩, users)
    | some who => match store with
      | some e => (.error ⟨500, e⟩, users)
      | none =>
        let users := upsertUser users ⟨who.subject, who.email, who.name, config.adminEmails⟩
        if roleOf users who.subject = some .admin then (.ok (some who), users) else
          (.error ⟨403, "Registering a repository mints a credential that can run code on a " ++
            "runner, so it is admin-only. Ask someone on CI_ADMIN_EMAILS to add you."⟩, users)

/-! ## What is admitted -/

/-- The origin of a URL, as browsers write it: in small letters and without a path, and with its port
only if that is not the one of the scheme. -/
def originOf (url : String) : Option String :=
  let scheme := (url.toList.takeWhile (· ≠ ':')).map Char.toLower
  (Text.afterFirst "://".toList url.toList).map fun rest =>
    let authority := rest.takeWhile fun c => c ≠ '/' ∧ c ≠ '?' ∧ c ≠ '#'
    let host := (Text.afterLast '@' authority).map Char.toLower
    let own := if scheme = "https".toList then ":443" else if scheme = "http".toList then ":80" else ""
    let host := if own.toList.isSuffixOf host then host.take (host.length - own.length) else host
    String.ofList (scheme ++ "://".toList ++ host)

example : originOf "https://CI.us2.heyo.work:443/runs" = some "https://ci.us2.heyo.work" := by
  decide

/-- The request has no `Origin`, or the origin of the app and nothing else. -/
def SameSite (publicUrl : String) (origins : List (List UInt8)) : Prop :=
  ∀ value ∈ origins, ∃ origin, originOf publicUrl = some origin ∧ headerStr value = some origin

/-- The request has no identity and no admins are named, or the stored role of the identity is
admin. -/
def Authorized (config : WebConfig) (headers : HeaderMap) (users : Users) : Prop :=
  (Identity.fromHeaders headers = none ∧ config.adminEmails = []) ∨
    ∃ who, Identity.fromHeaders headers = some who ∧ roleOf users who.subject = some .admin

/-- All that an admitted request can be. -/
theorem mayManage_cases {config : WebConfig} {headers : HeaderMap} {store : Option String}
    {users users' : Users} {who : Option Identity}
    (h : mayManage config headers store users = (.ok who, users')) :
    checkOrigin config.publicUrl headers = .ok () ∧ Identity.fromHeaders headers = who ∧
      (who = none ∧ config.adminEmails = [] ∨
        ∃ id, who = some id ∧ roleOf users' id.subject = some .admin ∧
          users' = upsertUser users ⟨id.subject, id.email, id.name, config.adminEmails⟩) := by
  unfold mayManage at h
  cases horigin : checkOrigin config.publicUrl headers with
  | error e => simp [horigin] at h
  | ok u =>
    refine ⟨rfl, ?_⟩
    simp only [horigin] at h
    cases hid : Identity.fromHeaders headers with
    | none =>
      simp only [hid] at h
      split_ifs at h with hempty
      · cases h
        exact ⟨rfl, Or.inl ⟨rfl, List.isEmpty_iff.mp hempty⟩⟩
      · simp at h
    | some id =>
      simp only [hid] at h
      cases store with
      | some e => simp at h
      | none =>
        simp only at h
        split_ifs at h with hrole
        · cases h
          exact ⟨rfl, Or.inr ⟨id, rfl, hrole, rfl⟩⟩
        · simp at h

theorem authorized_of_mayManage {config : WebConfig} {headers : HeaderMap} {store : Option String}
    {users users' : Users} {who : Option Identity}
    (h : mayManage config headers store users = (.ok who, users')) :
    Authorized config headers users' := by
  obtain ⟨-, hwho, ⟨rfl, hempty⟩ | ⟨id, rfl, hrole, -⟩⟩ := mayManage_cases h
  · exact Or.inl ⟨hwho, hempty⟩
  · exact Or.inr ⟨id, hwho, hrole⟩

/-- **Who is admitted was on the list of admins when it was seen**, now or before. -/
theorem listed_of_mayManage {config : WebConfig} {headers : HeaderMap} {store : Option String}
    {history : List Seen} {users' : Users} {who : Identity}
    (h : mayManage config headers store (Users.after Table.empty history) = (.ok (some who), users')) :
    listed who.email config.adminEmails = true ∨
      ∃ s ∈ history, s.subject = who.subject ∧ listed s.email s.adminEmails = true := by
  obtain ⟨-, -, ⟨hnone, -⟩ | ⟨id, hid, hrole, rfl⟩⟩ := mayManage_cases h
  · cases hnone
  · cases hid
    rw [roleOf_upsertUser, role_after_iff] at hrole
    rcases hrole with (hbefore | hseen) | ⟨-, hlisted⟩
    · cases hbefore
    · exact Or.inr hseen
    · exact Or.inl hlisted

theorem checkOrigin_of_unread {publicUrl : String} {headers : HeaderMap}
    (h : originText (headers.values "origin").head? = none) :
    checkOrigin publicUrl headers = .ok () := by
  unfold checkOrigin
  rw [get_eq_head, h]

theorem checkOrigin_of_read {publicUrl origin : String} {headers : HeaderMap}
    (h : originText (headers.values "origin").head? = some origin) :
    checkOrigin publicUrl headers = .ok () ↔ ownOrigin publicUrl origin = true := by
  unfold checkOrigin
  rw [get_eq_head, h]
  simp only
  split_ifs with hown <;> simp [hown]

/-- The values of `Origin` that the routes treat right: none, the origin of the app alone, or a first
one that is compared with the URL of the app and is another. -/
def OriginChecked (publicUrl : String) (origins : List (List UInt8)) : Prop :=
  SameSite publicUrl origins ∨
    ∃ origin, originText origins.head? = some origin ∧ ownOrigin publicUrl origin = false

/-- A request with some values of `Origin` and nothing else. -/
def bareRequest (origins : List (List UInt8)) : HeaderMap := origins.map ("origin", ·)

theorem values_bareRequest (origins : List (List UInt8)) :
    (bareRequest origins).values "origin" = origins := by
  unfold HeaderMap.values bareRequest
  have hall : (origins.map ("origin", ·)).filter (fun h => h.1 = "origin") =
      origins.map ("origin", ·) := by
    refine List.filter_eq_self.mpr fun h hmem => ?_
    obtain ⟨value, -, rfl⟩ := List.mem_map.mp hmem
    exact decide_eq_true rfl
  rw [hall, List.map_map]
  exact List.map_id origins

theorem fromHeaders_bareRequest (origins : List (List UInt8)) :
    Identity.fromHeaders (bareRequest origins) = none := by
  have hget : (bareRequest origins).get "x-auth-request-user" = none := by
    unfold HeaderMap.get
    rw [List.lookup_eq_none_iff]
    intro h hmem
    obtain ⟨value, -, rfl⟩ := List.mem_map.mp hmem
    have hne : "x-auth-request-user" ≠ "origin" := by decide
    exact bne_iff_ne.mpr hne
  unfold Identity.fromHeaders
  simp only [hget]
  rfl

/-- **Every request that is admitted is of the same site and of an admin**, whatever else it carries
and whoever was seen before, exactly with the values of `Origin` that are treated right. -/
theorem mayManage_guarded_iff (publicUrl : String) (origins : List (List UInt8)) :
    (∀ (headers : HeaderMap) (adminEmails : List String) (store : Option String)
        (users users' : Users) (who : Option Identity), headers.values "origin" = origins →
      mayManage ⟨publicUrl, adminEmails⟩ headers store users = (.ok who, users') →
      SameSite publicUrl (headers.values "origin") ∧
        Authorized ⟨publicUrl, adminEmails⟩ headers users') ↔
    OriginChecked publicUrl origins := by
  constructor
  · intro hall
    have hadmitted : checkOrigin publicUrl (bareRequest origins) = .ok () →
        SameSite publicUrl origins := by
      intro hok
      have hmay : mayManage ⟨publicUrl, []⟩ (bareRequest origins) none Table.empty =
          (.ok none, Table.empty) := by
        unfold mayManage
        simp only [hok, fromHeaders_bareRequest]
        rfl
      have hboth := hall _ [] none _ _ none (values_bareRequest origins) hmay
      rw [values_bareRequest] at hboth
      exact hboth.1
    cases hread : originText origins.head? with
    | none =>
      refine Or.inl (hadmitted (checkOrigin_of_unread ?_))
      rw [values_bareRequest, hread]
    | some origin =>
      cases hown : ownOrigin publicUrl origin with
      | false => exact Or.inr ⟨origin, hread, hown⟩
      | true =>
        refine Or.inl (hadmitted ((checkOrigin_of_read ?_).mpr hown))
        rw [values_bareRequest, hread]
  · rintro hchecked headers adminEmails store users users' who rfl hmay
    refine ⟨?_, authorized_of_mayManage hmay⟩
    have hok := (mayManage_cases hmay).1
    rcases hchecked with hsame | ⟨origin, hread, hown⟩
    · exact hsame
    · rw [checkOrigin_of_read hread, hown] at hok
      cases hok

section NullOrigin

private def ascii (s : String) : List UInt8 := s.toList.map fun c => c.toNat.toUInt8

/-- A form of a sandboxed page that an admin looks at. -/
private def sandboxed : HeaderMap := [("origin", ascii "null"),
  ("x-auth-request-user", ascii "108"), ("x-auth-request-email", ascii "boss@example.com")]

/-- A request with `Origin: null` is admitted. -/
theorem null_origin_admitted : ¬ ∀ (config : WebConfig) (headers : HeaderMap)
    (store : Option String) (users users' : Users) (who : Option Identity),
    mayManage config headers store users = (.ok who, users') →
    SameSite config.publicUrl (headers.values "origin") ∧ Authorized config headers users' := by
  intro hall
  let config : WebConfig := ⟨"https://ci.us2.heyo.work", ["boss@example.com"]⟩
  have hadmitted : (mayManage config sandboxed none Table.empty).1.toOption =
      some (some ⟨"108", "boss@example.com", none⟩) := by decide
  cases hmay : mayManage config sandboxed none Table.empty with
  | mk answer users' =>
    rw [hmay] at hadmitted
    cases answer with
    | error e => cases hadmitted
    | ok who =>
      obtain ⟨origin, hurl, hvalue⟩ := (hall _ _ _ _ _ _ hmay).1 (ascii "null") (by decide)
      have hown : originOf "https://ci.us2.heyo.work" = some "https://ci.us2.heyo.work" := by
        decide
      rw [hown] at hurl
      cases hurl
      exact absurd hvalue (by decide)

end NullOrigin

end HeyoCi
