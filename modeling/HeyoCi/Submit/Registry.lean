import HeyoCi.Lib.Since
import HeyoCi.Lib.Table
import HeyoCi.Submit.Tokens

/-!
# Registered repositories and their tokens

* `RepoToken`, `Registry`: the two tables, with the constraints of the schema;
* `Registry.registerRepo`, …, `Registry.authenticateRepoToken`: the statements of the store;
* `TokenCall`, `RegistryOp`, `Registry.run`: histories of statements;
* `Granted`: what a history says of a plaintext; **`live_iff_since`**: the rows that are not revoked;
* **`authenticate_iff_granted`**: a token is accepted if and only if the history grants it.
-/

namespace HeyoCi

open History

/-! ## Tables -/

/-- A row of `ci_repo_token`. -/
structure RepoToken where
  id : String
  repoId : String
  name : String
  secretHash : String
  revoked : Bool
  deriving Repr, DecidableEq

/-- `ci_repo`, whose column `normalized` is written with `url`, and `ci_repo_token`. -/
structure Registry where
  repos : Table Repo.id
  normalized : (repos.rows.map fun r => Repos.normalize r.url).Nodup
  tokens : Table RepoToken.id
  references : ∀ t ∈ tokens.rows, ∃ r ∈ repos.rows, r.id = t.repoId

namespace Registry

/-- The database before the first statement. -/
def empty : Registry where
  repos := .empty
  normalized := List.nodup_nil
  tokens := .empty
  references := nofun

variable (reg : Registry)

/-- `INSERT INTO ci_repo`, refused by its two unique columns. -/
def addRepo (r : Repo) : Option Registry :=
  if h : r.id ∉ reg.repos.rows.map Repo.id ∧
      Repos.normalize r.url ∉ reg.repos.rows.map fun r => Repos.normalize r.url then
    some {
      repos := ⟨r :: reg.repos.rows, List.nodup_cons.mpr ⟨h.1, reg.repos.nodup⟩⟩
      normalized := by
        rw [List.map_cons, List.nodup_cons]
        exact ⟨h.2, reg.normalized⟩
      tokens := reg.tokens
      references := fun t ht => by
        obtain ⟨r', hr', heq⟩ := reg.references t ht
        exact ⟨r', List.mem_cons_of_mem _ hr', heq⟩ }
  else none

/-- `UPDATE ci_repo`, of rows that stay the same repositories. -/
def setRepos (u : Table.Update Repo.id)
    (hu : ∀ r, Repos.normalize (u.row r).url = Repos.normalize r.url) : Registry where
  repos := reg.repos.update u
  normalized := by
    rw [Table.update, List.map_map]
    simp only [Function.comp_def, hu]
    exact reg.normalized
  tokens := reg.tokens
  references := fun t ht => by
    obtain ⟨r, hr, heq⟩ := reg.references t ht
    exact ⟨u.row r, List.mem_map_of_mem hr, (u.key_row r).trans heq⟩

/-- `INSERT INTO ci_repo_token`, refused by its primary key and its foreign key. -/
def addToken (t : RepoToken) : Option Registry :=
  if h : t.id ∉ reg.tokens.rows.map RepoToken.id ∧ ∃ r ∈ reg.repos.rows, r.id = t.repoId then
    some {
      repos := reg.repos
      normalized := reg.normalized
      tokens := ⟨t :: reg.tokens.rows, List.nodup_cons.mpr ⟨h.1, reg.tokens.nodup⟩⟩
      references := fun t' ht' => by
        rcases List.mem_cons.mp ht' with rfl | ht'
        · exact h.2
        · exact reg.references t' ht' }
  else none

/-! ## Statements of the store -/

/-- `repo_by_url`: the registration for a clone URL, in any of its spellings. -/
def repoByUrl (url : String) : Option Repo :=
  reg.repos.rows.find? fun r => Repos.normalize r.url = Repos.normalize url

/-- `ON CONFLICT (normalized) DO UPDATE`: the id and `enabled` stay. -/
def reregister (url name : String) (workflowPath network : Option String) :
    Table.Update Repo.id where
  hits r := Repos.normalize r.url = Repos.normalize url
  set r := { r with url := url, name := name, workflowPath := workflowPath, network := network }
  key_set _ := rfl

theorem normalize_reregister (url name : String) (workflowPath network : Option String) (r : Repo) :
    Repos.normalize ((reregister url name workflowPath network).row r).url =
      Repos.normalize r.url := by
  refine (reregister url name workflowPath network).map_row
    (f := fun r => Repos.normalize r.url) (fun r h => ?_) r
  have hkey : Repos.normalize r.url = Repos.normalize url := by simpa [reregister] using h
  rw [hkey]
  rfl

/-- The row that a first registration writes. -/
def newRepo (id url name : String) (workflowPath network : Option String) : Repo :=
  ⟨id, url, name, workflowPath, network, true⟩

/-- `register_repo`, with the id that was minted for it. -/
def registerRepo (id url name : String) (workflowPath network : Option String) :
    Option (Registry × Repo) := match reg.repoByUrl url with
  | some r =>
    let u := reregister url name workflowPath network
    some (reg.setRepos u (normalize_reregister url name workflowPath network), u.set r)
  | none => (reg.addRepo (newRepo id url name workflowPath network)).map fun reg' =>
    (reg', newRepo id url name workflowPath network)

/-- An update of one repository that leaves its URL alone. -/
def updateRepo (id : String) (set : Repo → Repo) (hid : ∀ r, (set r).id = r.id)
    (hurl : ∀ r, (set r).url = r.url) : Registry × Bool :=
  let u : Table.Update Repo.id := ⟨fun r => r.id = id, set, hid⟩
  (reg.setRepos u (u.map_row (f := fun r => Repos.normalize r.url) fun r _ => by rw [hurl]),
    reg.repos.affected u)

/-- `set_repo_network`. -/
def setRepoNetwork (repoId : String) (network : Option String) : Registry × Bool :=
  reg.updateRepo repoId
    (fun r => { r with network := (network.map Text.trim).filter fun n => !n.isEmpty })
    (fun _ => rfl) (fun _ => rfl)

/-- `set_repo_enabled`. -/
def setRepoEnabled (id : String) (enabled : Bool) : Registry × Bool :=
  reg.updateRepo id (fun r => { r with enabled := enabled }) (fun _ => rfl) (fun _ => rfl)

/-- `delete_repo`: the tokens of the repository go with it. -/
def deleteRepo (id : String) : Registry × Bool :=
  ({ repos := reg.repos.delete fun r => r.id = id
     normalized := (List.Sublist.map _ List.filter_sublist).nodup reg.normalized
     tokens := reg.tokens.delete fun t => t.repoId = id
     references := fun t ht => by
       obtain ⟨ht, hne⟩ := Table.mem_delete.mp ht
       obtain ⟨r, hr, heq⟩ := reg.references t ht
       exact ⟨r, Table.mem_delete.mpr ⟨hr, by rwa [heq]⟩, heq⟩ },
    reg.repos.rows.any fun r => r.id = id)

/-- `revoke_repo_token`. -/
def revocation (tokenId : String) : Table.Update RepoToken.id where
  hits t := t.id = tokenId && !t.revoked
  set t := { t with revoked := true }
  key_set _ := rfl

def revokeRepoToken (tokenId : String) : Registry × Bool :=
  ({ reg with
     tokens := reg.tokens.update (revocation tokenId)
     references := fun t ht => by
       obtain ⟨t₀, ht₀, rfl⟩ := (Table.mem_update _ _).mp ht
       obtain ⟨r, hr, heq⟩ := reg.references t₀ ht₀
       exact ⟨r, hr, heq.trans (Table.Update.map_row _ (fun _ _ => rfl) t₀).symm⟩ },
    reg.tokens.affected (revocation tokenId))

section Digest

variable (sha256 : Bytes → Bytes)

/-- `create_repo_token`, with the id and the bytes that were drawn for it; its plaintext last. -/
def createRepoToken (keyId : String) (bytes : Vector UInt8 32) (repoId name : String) :
    Option (Registry × RepoToken × String) :=
  let minted := Repos.mint sha256 keyId bytes
  let t : RepoToken := ⟨minted.keyId, repoId, name, minted.secretHash, false⟩
  (reg.addToken t).map fun reg' => (reg', t, minted.plaintext)

/-- The digest and the repository of a token that is not revoked, if the repository is enabled. -/
def activeToken (keyId : String) : Option (String × Repo) :=
  (reg.tokens.find keyId).bind fun t => if t.revoked then none
    else ((reg.repos.find t.repoId).filter (·.enabled)).map fun r => (t.secretHash, r)

/-- `authenticate_repo_token`. -/
def authenticateRepoToken (presented : String) : Option Repo :=
  (Repos.parseToken presented).bind fun (keyId, secret) =>
    (reg.activeToken keyId).bind fun (stored, r) =>
      if Repos.secretMatches sha256 secret stored then some r else none

end Digest

end Registry

/-! ## Histories -/

/-- A call of `create_repo_token`, with the clock, the counter and the bytes it meets. -/
structure TokenCall where
  ms : Nat
  seq : Nat
  bytes : Vector UInt8 32
  repoId : String
  name : String

/-- The statements that change the two tables. -/
inductive RegistryOp where
  | registerRepo (ms seq : Nat) (url name : String) (workflowPath network : Option String)
  | createRepoToken (call : TokenCall)
  | revokeRepoToken (tokenId : String)
  | setRepoEnabled (id : String) (enabled : Bool)
  | setRepoNetwork (id : String) (network : Option String)
  | deleteRepo (id : String)

namespace TokenCall

variable (call : TokenCall)

def keyId : String := newId call.ms call.seq

def secret : String := Repos.randomSecret call.bytes

theorem keyId_ne_empty : call.keyId ≠ "" := by
  rw [keyId, newId, Ne, ← String.toList_inj, String.toList_ofList]
  exact List.append_ne_nil_of_right_ne_nil _ (List.cons_ne_nil _ _)

/-- A letter of a key id passes what is true of the dash and of the digits. -/
theorem keyId_letter {p : Char → Bool} (hdash : p '-' = true)
    (hdigits : "0123456789abcdef".toList.all p = true) : ∀ c ∈ call.keyId.toList, p c = true := by
  have hhex : ∀ c, isHexDigit c = true → p c = true :=
    fun c hc => List.all_eq_true.mp hdigits c (of_decide_eq_true hc)
  intro c hc
  rw [keyId, newId, String.toList_ofList, List.mem_append, List.mem_cons] at hc
  rcases hc with hc | rfl | hc
  · exact hhex c (isHexDigit_hexChars hc)
  · exact hdash
  · exact hhex c (isHexDigit_hexChars hc)

theorem all_keyId : call.keyId.toList.all Repos.isKeyChar = true :=
  List.all_eq_true.mpr (call.keyId_letter (by decide) (by decide))

theorem secret_ne_empty : call.secret ≠ "" := by
  rw [secret, Repos.randomSecret, Ne, ← String.toList_inj, String.toList_ofList]
  refine encodeBase64_ne_nil fun hnil => ?_
  have hlen := congrArg List.length hnil
  rw [Vector.length_toList] at hlen
  cases hlen

/-- What is read as the token of a call is its plaintext. -/
theorem parseToken_iff (t : String) : Repos.parseToken t = some (call.keyId, call.secret) ↔
    Text.trim t = Repos.tokenText call.keyId call.secret := by
  rw [Repos.parseToken_eq_some]
  exact and_iff_left ⟨call.keyId_ne_empty, call.secret_ne_empty, call.all_keyId⟩

/-- **A plaintext is read back** as what it was made of. -/
theorem parseToken_plaintext : Repos.parseToken (Repos.tokenText call.keyId call.secret) =
    some (call.keyId, call.secret) := by
  have hletter : (base64Letters.all fun c => !Text.isWhitespace c) = true := by decide
  have hspace : ∀ c ∈ (Repos.tokenText call.keyId call.secret).toList,
      (!Text.isWhitespace c) = true := by
    rw [Repos.toList_tokenText, List.forall_mem_append, List.forall_mem_append, List.forall_mem_cons]
    refine ⟨List.all_eq_true.mp (by decide), call.keyId_letter (by decide) (by decide), by decide,
      fun c hc => ?_⟩
    rw [secret, Repos.randomSecret, String.toList_ofList] at hc
    exact List.all_eq_true.mp hletter c (mem_encodeBase64 hc)
  rw [parseToken_iff, ← String.ofList_toList (s := Repos.tokenText call.keyId call.secret)]
  exact Text.trim_of_noSpace fun c hc => by simpa using hspace c hc

variable (sha256 : Bytes → Bytes) (reg : Registry)

/-- The row that a call writes. -/
def row : RepoToken :=
  ⟨call.keyId, call.repoId, call.name, Repos.hashSecret sha256 call.secret, false⟩

theorem createRepoToken_eq :
    reg.createRepoToken sha256 call.keyId call.bytes call.repoId call.name =
      (reg.addToken (call.row sha256)).map fun reg' =>
        (reg', call.row sha256, Repos.tokenText call.keyId call.secret) := rfl

/-- The plaintext that a call returns. -/
def returned : Option String :=
  (reg.createRepoToken sha256 call.keyId call.bytes call.repoId call.name).map fun (_, _, p) => p

theorem returned_eq_some {p : String} : call.returned sha256 reg = some p ↔
    (reg.addToken (call.row sha256)).isSome = true ∧
      p = Repos.tokenText call.keyId call.secret := by
  rw [returned, createRepoToken_eq]
  cases reg.addToken (call.row sha256) with
  | none => simp
  | some reg' => simp [eq_comm]

end TokenCall

namespace Registry

variable (sha256 : Bytes → Bytes)

/-- One statement; one that is refused changes nothing. -/
def step (reg : Registry) : RegistryOp → Registry
  | .registerRepo ms seq url name workflowPath network =>
    (reg.registerRepo (newId ms seq) url name workflowPath network).elim reg fun (reg', _) => reg'
  | .createRepoToken call =>
    (reg.createRepoToken sha256 call.keyId call.bytes call.repoId call.name).elim reg
      fun (reg', _) => reg'
  | .revokeRepoToken tokenId => (reg.revokeRepoToken tokenId).1
  | .setRepoEnabled id enabled => (reg.setRepoEnabled id enabled).1
  | .setRepoNetwork id network => (reg.setRepoNetwork id network).1
  | .deleteRepo id => (reg.deleteRepo id).1

/-- The database after a history. -/
def run (ops : List RegistryOp) : Registry := ops.foldl (step sha256) empty

theorem run_concat (ops : List RegistryOp) (op : RegistryOp) :
    run sha256 (ops ++ [op]) = (run sha256 ops).step sha256 op := by
  rw [run, List.foldl_append]
  rfl

/-- A row that has not been revoked. -/
def Live (reg : Registry) (t : RepoToken) : Prop := t ∈ reg.tokens.rows ∧ t.revoked = false

variable {sha256} {reg reg' : Registry} {t : RepoToken}

theorem tokens_addRepo {r : Repo} (h : reg.addRepo r = some reg') : reg'.tokens = reg.tokens := by
  unfold addRepo at h
  split_ifs at h
  cases h
  rfl

theorem tokens_registerRepo (ms seq : Nat) (url name : String)
    (workflowPath network : Option String) :
    (reg.step sha256 (.registerRepo ms seq url name workflowPath network)).tokens = reg.tokens := by
  rw [step, registerRepo]
  split
  · rfl
  · cases h : reg.addRepo (newRepo (newId ms seq) url name workflowPath network) with
    | none => rfl
    | some reg' => exact tokens_addRepo h

theorem rows_addToken {t₀ : RepoToken} (h : reg.addToken t₀ = some reg') :
    reg'.tokens.rows = t₀ :: reg.tokens.rows := by
  unfold addToken at h
  split_ifs at h
  cases h
  rfl

theorem live_revoke (tokenId : String) :
    (reg.revokeRepoToken tokenId).1.Live t ↔ reg.Live t ∧ t.id ≠ tokenId := by
  change t ∈ (reg.tokens.update (revocation tokenId)).rows ∧ _ ↔ _
  rw [Table.mem_update]
  constructor
  · rintro ⟨⟨t₀, ht₀, rfl⟩, hlive⟩
    unfold Table.Update.row at hlive ⊢
    split_ifs at hlive ⊢ with hhits
    · cases hlive
    · refine ⟨⟨ht₀, hlive⟩, fun heq => hhits ?_⟩
      simp [revocation, heq, hlive]
  · rintro ⟨⟨ht, hlive⟩, hne⟩
    refine ⟨⟨t, ht, Table.Update.row_of_not_hits ?_⟩, hlive⟩
    simp [revocation, hne]

theorem live_delete (id : String) :
    (reg.deleteRepo id).1.Live t ↔ reg.Live t ∧ t.repoId ≠ id := by
  change t ∈ (reg.tokens.delete fun t => t.repoId = id).rows ∧ _ ↔ _
  rw [Table.mem_delete, decide_eq_false_iff_not]
  exact and_right_comm

/-- **The live rows after one statement**: the one it writes, and those it leaves alone. -/
theorem live_step (op : RegistryOp) : (reg.step sha256 op).Live t ↔
    (∃ call, op = .createRepoToken call ∧ (reg.addToken (call.row sha256)).isSome = true ∧
      t = call.row sha256) ∨
    (reg.Live t ∧ op ≠ .revokeRepoToken t.id ∧ op ≠ .deleteRepo t.repoId) := by
  cases op with
  | registerRepo ms seq url name workflowPath network =>
    simp [Live, tokens_registerRepo]
  | createRepoToken call =>
    have hstep : reg.step sha256 (.createRepoToken call) =
        (reg.addToken (call.row sha256)).getD reg := by
      rw [step, call.createRepoToken_eq]
      cases reg.addToken (call.row sha256) <;> rfl
    rw [hstep]
    cases hadd : reg.addToken (call.row sha256) with
    | none => simp [hadd]
    | some reg' =>
      have hfalse : (call.row sha256).revoked = false := rfl
      simp only [Live, Option.getD_some, rows_addToken hadd, List.mem_cons]
      constructor
      · rintro ⟨rfl | ht, hlive⟩
        · exact Or.inl ⟨call, rfl, by rw [hadd]; rfl, rfl⟩
        · exact Or.inr ⟨⟨ht, hlive⟩, by simp, by simp⟩
      · rintro (⟨call', heq, -, rfl⟩ | ⟨⟨ht, hlive⟩, -, -⟩)
        · cases heq
          exact ⟨Or.inl rfl, hfalse⟩
        · exact ⟨Or.inr ht, hlive⟩
  | revokeRepoToken tokenId =>
    rw [step, live_revoke, ne_comm]
    simp
  | deleteRepo id =>
    rw [step, live_delete, ne_comm]
    simp
  | setRepoEnabled id enabled => simp [Live, step, setRepoEnabled, updateRepo, setRepos]
  | setRepoNetwork id network => simp [Live, step, setRepoNetwork, updateRepo, setRepos]

/-- **The live rows after a history** are those that were written and left alone since. -/
theorem live_iff_since (ops : List RegistryOp) : (run sha256 ops).Live t ↔
    Since (fun before op => ∃ call, op = .createRepoToken call ∧
        ((run sha256 before).addToken (call.row sha256)).isSome = true ∧ t = call.row sha256)
      (fun op => op ≠ .revokeRepoToken t.id ∧ op ≠ .deleteRepo t.repoId) ops := by
  apply since_iff_of_step (S := fun ops => (run sha256 ops).Live t)
  · exact fun h => absurd h.1 List.not_mem_nil
  · intro ops op
    rw [run_concat]
    exact live_step op

/-! ## Authentication -/

theorem secretMatches_iff {secret stored : String} :
    Repos.secretMatches sha256 secret stored = true ↔ stored = Repos.hashSecret sha256 secret := by
  rw [Repos.secretMatches, Bool.and_eq_true, decide_eq_true_eq, decide_eq_true_eq]
  constructor
  · exact fun h => h.2.symm
  · rintro rfl
    exact ⟨rfl, rfl⟩

theorem activeToken_eq_some {keyId stored : String} {repo : Repo} :
    reg.activeToken keyId = some (stored, repo) ↔ ∃ t, reg.Live t ∧ t.id = keyId ∧
      t.secretHash = stored ∧ reg.repos.find t.repoId = some repo ∧ repo.enabled = true := by
  rw [activeToken, Option.bind_eq_some_iff]
  constructor
  · rintro ⟨t, hfind, h⟩
    split_ifs at h with hrev
    rw [Option.map_eq_some_iff] at h
    obtain ⟨r, hr, heq⟩ := h
    cases heq
    rw [Option.filter_eq_some_iff] at hr
    exact ⟨t, ⟨Table.mem_of_find hfind, Bool.eq_false_iff.mpr hrev⟩, Table.key_of_find hfind, rfl,
      hr.1, hr.2⟩
  · rintro ⟨t, ⟨ht, hlive⟩, rfl, rfl, hrepo, henabled⟩
    refine ⟨t, Table.find_of_mem _ ht, ?_⟩
    rw [hlive, if_neg Bool.false_ne_true, hrepo, Option.filter_some, if_pos henabled,
      Option.map_some]

/-- A token is accepted for a live row with the digest of its secret. -/
theorem authenticate_eq_some {presented : String} {repo : Repo} :
    reg.authenticateRepoToken sha256 presented = some repo ↔ ∃ keyId secret t,
      Repos.parseToken presented = some (keyId, secret) ∧ reg.Live t ∧ t.id = keyId ∧
      t.secretHash = Repos.hashSecret sha256 secret ∧ reg.repos.find t.repoId = some repo ∧
      repo.enabled = true := by
  simp only [authenticateRepoToken, Option.bind_eq_some_iff, Prod.exists, activeToken_eq_some,
    Option.ite_none_right_eq_some, secretMatches_iff, Option.some_inj]
  constructor
  · rintro ⟨keyId, secret, hparse, stored, r, ⟨t, hlive, hid, rfl, hfind, henabled⟩, hmatch, rfl⟩
    exact ⟨keyId, secret, t, hparse, hlive, hid, hmatch, hfind, henabled⟩
  · rintro ⟨keyId, secret, t, hparse, hlive, hid, hmatch, hfind, henabled⟩
    exact ⟨keyId, secret, hparse, t.secretHash, repo, ⟨t, hlive, hid, rfl, hfind, henabled⟩, hmatch,
      rfl⟩

/-- An update of the repositories changes the one that is answered, and nothing else. -/
theorem authenticate_setRepos {u : Table.Update Repo.id}
    {hu : ∀ r, Repos.normalize (u.row r).url = Repos.normalize r.url}
    (henabled : ∀ r, (u.row r).enabled = r.enabled) (presented : String) :
    (reg.setRepos u hu).authenticateRepoToken sha256 presented =
      (reg.authenticateRepoToken sha256 presented).map u.row := by
  refine Option.ext fun repo => ?_
  have hfind : ∀ id, (reg.setRepos u hu).repos.find id = (reg.repos.find id).map u.row :=
    fun id => Table.find_update _ _ id
  rw [Option.map_eq_some_iff, authenticate_eq_some]
  constructor
  · rintro ⟨keyId, secret, t, hparse, hlive, hid, hmatch, hrepo, hen⟩
    rw [hfind, Option.map_eq_some_iff] at hrepo
    obtain ⟨r, hr, rfl⟩ := hrepo
    rw [henabled] at hen
    exact ⟨r, authenticate_eq_some.mpr ⟨keyId, secret, t, hparse, hlive, hid, hmatch, hr, hen⟩, rfl⟩
  · rintro ⟨r, hr, rfl⟩
    obtain ⟨keyId, secret, t, hparse, hlive, hid, hmatch, hrepo, hen⟩ := authenticate_eq_some.mp hr
    refine ⟨keyId, secret, t, hparse, hlive, hid, hmatch, ?_, ?_⟩
    · rw [hfind, hrepo, Option.map_some]
    · rw [henabled, hen]

theorem enabled_reregister (url name : String) (workflowPath network : Option String) (r : Repo) :
    ((reregister url name workflowPath network).row r).enabled = r.enabled :=
  Table.Update.map_row _ (fun _ _ => rfl) r

/-- Registering a repository again, in whatever spelling, leaves its tokens as they are. -/
theorem authenticate_register_again {url : String} (hurl : (reg.repoByUrl url).isSome = true)
    (ms seq : Nat) (name : String) (workflowPath network : Option String) (presented : String) :
    ((reg.step sha256 (.registerRepo ms seq url name workflowPath network)).authenticateRepoToken
      sha256 presented).map Repo.id = (reg.authenticateRepoToken sha256 presented).map Repo.id := by
  obtain ⟨r, hr⟩ := Option.isSome_iff_exists.mp hurl
  have hstep : reg.step sha256 (.registerRepo ms seq url name workflowPath network) =
      reg.setRepos (reregister url name workflowPath network)
        (normalize_reregister url name workflowPath network) := by
    rw [step, registerRepo, hr]
    rfl
  have hkey : Repo.id ∘ (reregister url name workflowPath network).row = Repo.id :=
    funext fun r => Table.Update.key_row _ r
  rw [hstep, authenticate_setRepos (enabled_reregister url name workflowPath network),
    Option.map_map, hkey]

/-- No secret that is presented has the digest of another one that was drawn. -/
def NoCollision (sha256 : Bytes → Bytes) (ops : List RegistryOp) (presented : String) : Prop :=
  ∀ keyId secret, Repos.parseToken presented = some (keyId, secret) →
    ∀ call, .createRepoToken call ∈ ops →
      sha256 (utf8 secret) = sha256 (utf8 call.secret) → secret = call.secret

/-- A call returned this plaintext for this repository; since then the token has not been revoked,
nor the repository deleted. -/
def Granted (sha256 : Bytes → Bytes) (ops : List RegistryOp) (plaintext repoId : String) :
    Prop :=
  ∃ call : TokenCall, call.repoId = repoId ∧
    Since (fun before op => op = .createRepoToken call ∧
        call.returned sha256 (run sha256 before) = some plaintext)
      (fun op => op ≠ .revokeRepoToken call.keyId ∧ op ≠ .deleteRepo repoId) ops

/-- **Submit tokens.** After every history, a text is accepted for a repository if and only if the
history grants it, the repository is registered and it is enabled; registering it again in another
spelling does not matter. -/
theorem authenticate_iff_granted (sha256 : Bytes → Bytes) (ops : List RegistryOp)
    (presented : String) (hsha : NoCollision sha256 ops presented) :
    (∀ repo, (run sha256 ops).authenticateRepoToken sha256 presented = some repo ↔
      Granted sha256 ops (Text.trim presented) repo.id ∧
        (run sha256 ops).repos.find repo.id = some repo ∧ repo.enabled = true) ∧
    ∀ ms seq url name workflowPath network, ((run sha256 ops).repoByUrl url).isSome = true →
      ((run sha256 (ops ++ [.registerRepo ms seq url name workflowPath network])).authenticateRepoToken
        sha256 presented).map Repo.id =
      ((run sha256 ops).authenticateRepoToken sha256 presented).map Repo.id := by
  refine ⟨fun repo => ?_, fun ms seq url name workflowPath network hurl => ?_⟩
  · rw [authenticate_eq_some]
    constructor
    · rintro ⟨keyId, secret, t, hparse, hlive, rfl, hmatch, hfind, henabled⟩
      have hid : t.repoId = repo.id := (Table.key_of_find hfind).symm
      obtain ⟨before, op, after, rfl, ⟨call, rfl, hadd, rfl⟩, hsince⟩ :=
        (live_iff_since ops).mp hlive
      have hsecret : secret = call.secret := hsha _ _ hparse call (by simp)
        (hex_inj hmatch).symm
      rw [hsecret] at hparse
      refine ⟨⟨call, hid, before, _, after, rfl, ⟨rfl, ?_⟩, ?_⟩, hid ▸ hfind, henabled⟩
      · exact (call.returned_eq_some sha256 _).mpr ⟨hadd, (call.parseToken_iff presented).mp hparse⟩
      · rw [← hid]
        exact hsince
    · rintro ⟨⟨call, hid, before, op, after, rfl, ⟨rfl, hreturned⟩, hsince⟩, hfind, henabled⟩
      obtain ⟨hadd, htext⟩ := (call.returned_eq_some sha256 _).mp hreturned
      refine ⟨call.keyId, call.secret, call.row sha256, (call.parseToken_iff presented).mpr htext,
        ?_, rfl, rfl, ?_, henabled⟩
      · rw [← hid] at hsince
        exact (live_iff_since _).mpr ⟨before, _, after, rfl, ⟨call, rfl, hadd, rfl⟩, hsince⟩
      · rw [← hid] at hfind
        exact hfind
  · rw [run_concat]
    exact authenticate_register_again hurl ms seq name workflowPath network presented

/-- A token of a repository. -/
def laptopCall : TokenCall where
  ms := 1700000000000
  seq := 1
  bytes := #v[244, 122, 193, 11, 88, 204, 67, 114, 165, 103, 14, 2, 178, 195, 212, 121, 27, 157, 107,
    205, 187, 253, 75, 45, 155, 93, 171, 141, 251, 189, 75, 237]
  repoId := "018bcfe56800-00000000"
  name := "laptop"

/-- A repository is registered, gets a token, is registered again and goes to another network. -/
def moved : List RegistryOp :=
  [.registerRepo 1700000000000 0 "git@github.com:me/app.git" "me/app" none none,
    .createRepoToken laptopCall,
    .registerRepo 1700000000000 2 "https://github.com/me/app" "app" (some "ci.yml") none,
    .setRepoNetwork "018bcfe56800-00000000" (some " gpu ")]

/-- The digest of the secret of that token, and another one for all else. -/
def laptopDigest (content : Bytes) : Bytes :=
  if content = utf8 "9HrBC1jMQ3KlZw4CssPUeRuda827_Ustm12rjfu9S-0" then
    [117, 8, 229, 210, 232, 251, 203, 40, 148, 157, 225, 24, 180, 68, 179, 232, 37, 194, 185, 62, 176,
      60, 116, 32, 12, 164, 244, 115, 95, 58, 82, 65]
  else List.replicate 32 0

def laptopToken : String := "cis_018bcfe56800-00000001.9HrBC1jMQ3KlZw4CssPUeRuda827_Ustm12rjfu9S-0"

theorem laptop_accepted :
    (run laptopDigest moved).authenticateRepoToken laptopDigest (" " ++ laptopToken ++ "\n") =
      some ⟨"018bcfe56800-00000000", "https://github.com/me/app", "app", some "ci.yml", some "gpu",
        true⟩ := by
  have hparse : Repos.parseToken (" " ++ laptopToken ++ "\n") =
      some ("018bcfe56800-00000001", "9HrBC1jMQ3KlZw4CssPUeRuda827_Ustm12rjfu9S-0") :=
    Repos.parseToken_eq_some.mpr ⟨by decide, by decide, by decide, by decide⟩
  have hsecret : laptopCall.secret = "9HrBC1jMQ3KlZw4CssPUeRuda827_Ustm12rjfu9S-0" := by
    decide +kernel
  refine ((authenticate_iff_granted laptopDigest moved _ ?_).1 _).mpr ⟨?_, ?_, rfl⟩
  · intro keyId secret h call hcall _
    rw [hparse] at h
    cases h
    obtain rfl : call = laptopCall := by simpa [moved] using hcall
    exact hsecret.symm
  · refine ⟨laptopCall, rfl, moved.take 1, _, moved.drop 2, rfl, ⟨rfl, ?_⟩, by simp [moved]⟩
    decide +kernel
  · decide +kernel

end Registry

end HeyoCi
