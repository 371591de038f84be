import AegisDB.Access.TokenFile
import AegisDB.Foundations.Machine

/-!
# The dispatch of requests

A request names an operation. The table of operations (`Op.policy`) says who may run it;
`authorise` makes the checks of `dispatch_inner` in their order, and returns the operation with the
identity it is run under. The operations on tokens change the token list of the server; the
operations on memories are a parameter here, a function of the database.
-/

namespace AegisDB

variable {op : Op}

/-! ## Errors -/

/-- `aegis_status_t`, its success apart. -/
inductive Status
  | invalidRequest
  | notFound
  | payloadTooLarge
  | immutable
  | notReady
  | unauthorized
  | forbidden
  | quotaExceeded
  | rateLimited
  | readOnly
  | memoryLimit
  | internal
  deriving DecidableEq, Repr

/-- An error of the wire protocol: its code and its message. -/
structure WireError where
  code : String
  message : String
  deriving DecidableEq

/-- `json_error_status`: `aegis_status_code` and `aegis_status_message`. -/
def Status.error : Status → WireError
  | .invalidRequest => ⟨"INVALID_REQUEST", "malformed or incomplete request"⟩
  | .notFound => ⟨"NOT_FOUND", "memory not found"⟩
  | .payloadTooLarge => ⟨"PAYLOAD_TOO_LARGE", "payload exceeds configured limit"⟩
  | .immutable => ⟨"IMMUTABLE", "record is immutable"⟩
  | .notReady => ⟨"NOT_READY", "feature not enabled for current phase"⟩
  | .unauthorized => ⟨"UNAUTHORIZED", "authentication required or invalid token"⟩
  | .forbidden => ⟨"FORBIDDEN", "not permitted for this token"⟩
  | .quotaExceeded => ⟨"QUOTA_EXCEEDED", "tenant storage quota exceeded"⟩
  | .rateLimited => ⟨"RATE_LIMITED", "tenant request rate limit exceeded"⟩
  | .readOnly => ⟨"READ_ONLY", "server is a read-only replica; write to the primary"⟩
  | .memoryLimit =>
    ⟨"MEMORY_LIMIT", "server index-memory limit reached; free memory or raise --max-index-bytes"⟩
  | .internal => ⟨"INTERNAL", "internal server error"⟩

/-- The operations of `OPS`. -/
inductive Op
  | ping
  | stats
  | tokenList
  | tokenAdd
  | tokenRevoke
  | snapshot
  | insert
  | get
  | history
  | update
  | delete
  | export
  | purge
  | search
  | count
  | consolidate
  | forget
  | promote
  | relate
  | traverse
  | conflicts
  | predicates
  deriving DecidableEq, Repr

/-- `OPS`, in its order. -/
def ops : List (String × Op) :=
  [("ping", .ping), ("stats", .stats), ("token_list", .tokenList), ("token_add", .tokenAdd),
    ("token_revoke", .tokenRevoke), ("snapshot", .snapshot), ("insert", .insert), ("get", .get),
    ("history", .history), ("update", .update), ("delete", .delete), ("export", .export),
    ("purge", .purge), ("search", .search), ("count", .count), ("consolidate", .consolidate),
    ("forget", .forget), ("promote", .promote), ("relate", .relate), ("traverse", .traverse),
    ("conflicts", .conflicts), ("predicates", .predicates)]

def findOp (name : CString) : Option Op :=
  (ops.find? fun x => name = .ofString x.1).map Prod.snd

/-- `OP_WRITE`: the operation changes memories; it needs a write token, and no replica runs it. -/
def Op.write : Op → Bool
  | .insert | .update | .delete | .purge | .consolidate | .forget | .promote | .relate => true
  | _ => false

/-- `OP_GLOBAL`: no namespaced caller may run the operation. -/
def Op.global : Op → Bool
  | .stats | .tokenList | .tokenAdd | .tokenRevoke | .snapshot => true
  | _ => false

/-- `OP_WRITE_TOK`: the operation needs a write token, but a replica runs it. -/
def Op.writeTok (op : Op) : Bool := op = .snapshot

/-- `OP_NOAUTH`: the operation is run before the caller is identified. -/
def Op.noAuth (op : Op) : Bool := op = .ping

/-! ## The server -/

/-- What the server takes from outside while it serves a request. -/
structure Env where
  now : UInt64
  rateAllowed : Bool
  /-- The 32 bytes read from `/dev/urandom`, if they can be read. -/
  random : Option Digest
  fileWritable : Bool

/-- A request, with the circumstances it is served in. -/
structure Request where
  body : Json
  env : Env

/-- The server: its tokens, and a database. -/
structure Server (δ : Type) where
  tokens : List AuthToken
  /-- The content of the file `auth_token_file`, when there is one. -/
  tokenFile : Option Bytes
  readOnly : Bool
  db : δ

/-- What `token_list` says of an entry. -/
structure TokenInfo where
  id : Bytes
  ns : Option CString
  scope : TokenScope
  deriving DecidableEq

/-- The answers of the server; `ρ` are those of the operations on memories. -/
inductive Reply (ρ : Type)
  | error (e : WireError)
  | tokens (infos : List TokenInfo)
  | tokenAdded (id : Bytes) (minted : Option Bytes) (persisted : Bool)
  | revoked (persisted : Bool)
  | data (r : ρ)
  deriving DecidableEq

/-- The operations on memories: the identity is missing for `ping` only. -/
abbrev Handlers (δ ρ : Type) := Op → Option AuthCtx → Json → Env → δ → δ × ρ

section

variable {δ ρ : Type}

/-- The checks of `dispatch_inner`: which operation is run, and under which identity. -/
def authorise (s : Server δ) (q : Request) : Except WireError (Op × Option AuthCtx) :=
  match jrStr q.body "operation" with
  | none => .error Status.invalidRequest.error
  | some name =>
    match findOp name with
    | none => .error ⟨"INVALID_REQUEST", "unknown operation"⟩
    | some op =>
      if op.noAuth then .ok (op, none)
      else
        match resolveIdentity s.tokens (jrStr q.body "token") with
        | none => .error Status.unauthorized.error
        | some ctx =>
          if op.write && !ctx.canWrite then .error Status.forbidden.error
          else if s.readOnly && op.write then .error Status.readOnly.error
          else if ctx.ns.isSome && !q.env.rateAllowed then .error Status.rateLimited.error
          else if op.global && ctx.ns.isSome then .error Status.forbidden.error
          else if op.writeTok && !ctx.canWrite then .error Status.forbidden.error
          else .ok (op, some ctx)

/-- The token file behind an attempt to write it, and whether that succeeded. -/
def persist (s : Server δ) (toks : List AuthToken) (ok : Bool) : Option Bytes × Bool :=
  match s.tokenFile with
  | none => (none, false)
  | some old => if ok then (some (configWriteTokenFile toks), true) else (some old, false)

def handleTokenList (s : Server δ) : Reply ρ :=
  .tokens (s.tokens.map fun t => ⟨configTokenFingerprint t, t.ns, t.scope⟩)

def scopeFromStr (s : CString) : Option TokenScope :=
  if s = .ofString "rw" then some .rw
  else if s = .ofString "ro" then some .ro
  else if s = .ofString "admin" then some .admin
  else none

def maxAgentId : ℕ := 128

def tokenNamespaceOk (ns : CString) : Bool :=
  1 ≤ ns.bytes.length && ns.bytes.length ≤ maxAgentId &&
    ns.bytes.all fun c => !(c.toNat ≤ 0x20 || c = 0x7f)

/-- The namespace and the scope `handle_token_add` gives to a token; `none` is its refusal. -/
def tokenBinding (req : Json) : Option (Option CString × TokenScope) :=
  let ns := jrStr req "namespace"
  let scope := (jrStr req "scope").getD (.ofString (if ns.isSome then "rw" else "admin"))
  (scopeFromStr scope).bind fun scope =>
    if scope = .admin then some (none, .admin)
    else ns.bind fun ns => if tokenNamespaceOk ns then some (some ns, scope) else none

def handleTokenAdd (s : Server δ) (q : Request) : Server δ × Reply ρ :=
  match tokenBinding q.body with
  | none => (s, .error Status.invalidRequest.error)
  | some (ns, scope) =>
    -- the secret of the request, or a random one
    let minted := q.env.random.map fun d => hexEncode d.1
    match (jrStr q.body "new_token").or (minted.map .ofBytes) with
    | none => (s, .error Status.internal.error)
    | some tok =>
      match appendToken s.tokens tok ns scope with
      | none => (s, .error Status.internal.error)
      | some toks =>
        let (file, persisted) := persist s toks q.env.fileWritable
        ({ s with tokens := toks, tokenFile := file },
          .tokenAdded (toks.getLast?.elim [] configTokenFingerprint)
            (if (jrStr q.body "new_token").isSome then none else minted) persisted)

def handleTokenRevoke (s : Server δ) (q : Request) : Server δ × Reply ρ :=
  match jrStr q.body "id" with
  | none => (s, .error Status.invalidRequest.error)
  | some id =>
    match configRemoveToken id s.tokens with
    | none => (s, .error Status.notFound.error)
    | some toks =>
      let (file, persisted) := persist s toks q.env.fileWritable
      ({ s with tokens := toks, tokenFile := file }, .revoked persisted)

variable (H : Handlers δ ρ)

def dispatchInner (s : Server δ) (q : Request) : Server δ × Reply ρ :=
  match authorise s q with
  | .error e => (s, .error e)
  | .ok (.tokenList, _) => (s, handleTokenList s)
  | .ok (.tokenAdd, _) => handleTokenAdd s q
  | .ok (.tokenRevoke, _) => handleTokenRevoke s q
  | .ok (op, ctx) => ({ s with db := (H op ctx q.body q.env s.db).1 },
      .data (H op ctx q.body q.env s.db).2)

/-- The step of the server that serves a request. -/
def serverStep (s : Server δ) (q : Request) : Option (Server δ) := some (dispatchInner H s q).1

variable {H} {s : Server δ} {q : Request}

theorem authorise_eq_ok {ctx : AuthCtx} :
    authorise s q = .ok (op, some ctx) ↔
      (∃ name, jrStr q.body "operation" = some name ∧ findOp name = some op) ∧ op.noAuth = false ∧
        resolveIdentity s.tokens (jrStr q.body "token") = some ctx ∧
        (op.write = true → ctx.canWrite = true ∧ s.readOnly = false) ∧
        (ctx.ns.isSome = true → q.env.rateAllowed = true ∧ op.global = false) ∧
        (op.writeTok = true → ctx.canWrite = true) := by
  unfold authorise
  cases jrStr q.body "operation" with
  | none => simp
  | some name =>
    cases hop : findOp name with
    | none => simp [hop]
    | some op' =>
      cases hn : op'.noAuth with
      | true =>
        simp only [hn, if_true, Except.ok.injEq, Prod.mk.injEq, reduceCtorEq, and_false, hop,
          Option.some.injEq, false_iff, not_and]
        rintro ⟨_, rfl, h⟩ h'
        rw [hop] at h
        cases h
        rw [hn] at h'
        cases h'
      | false =>
        cases hres : resolveIdentity s.tokens (jrStr q.body "token") with
        | none => simp [hop, hn]
        | some c =>
          simp only [hn, Option.some.injEq, exists_eq_left', hop]
          constructor
          · intro h
            simp only [Bool.false_eq_true, if_false] at h
            split_ifs at h with h1 h2 h3 h4 h5
            cases h
            simp only [Bool.and_eq_true, Bool.not_eq_true', not_and, Bool.not_eq_true,
              Bool.not_eq_false] at h1 h2 h3 h4 h5
            refine ⟨rfl, hn, rfl, fun hw => ⟨h1 hw, ?_⟩, fun hns => ⟨h3 hns, ?_⟩, h5⟩
            · cases hro : s.readOnly with
              | false => rfl
              | true => exact absurd hw (by simp [h2 hro])
            · cases hg : op.global with
              | false => rfl
              | true => exact absurd hns (by simp [h4 hg])
          · rintro ⟨rfl, -, rfl, hw, hns, ht⟩
            cases h1 : op'.write <;> cases h2 : c.ns.isSome <;> cases h3 : op'.writeTok <;>
              simp_all

theorem findOp_of_authorise {ctx : Option AuthCtx} (h : authorise s q = .ok (op, ctx)) :
    ∃ name, jrStr q.body "operation" = some name ∧ findOp name = some op := by
  unfold authorise at h
  split at h
  · cases h
  · rename_i name hname
    refine ⟨name, hname, ?_⟩
    split at h
    · cases h
    · grind

/-- An operation that needs a write token is run for one, and on no replica if it changes memories. -/
theorem canWrite_of_authorise {ctx : Option AuthCtx} (h : authorise s q = .ok (op, ctx))
    (hop : op.write = true ∨ op.writeTok = true) :
    (op.write = true → s.readOnly = false) ∧
      ∃ c, resolveIdentity s.tokens (jrStr q.body "token") = some c ∧ c.canWrite = true := by
  cases ctx with
  | some c =>
    obtain ⟨-, -, hres, hwrite, -, htok⟩ := authorise_eq_ok.1 h
    exact ⟨fun hw => (hwrite hw).2, c, hres, hop.elim (fun hw => (hwrite hw).1) htok⟩
  | none =>
    -- only `ping` is run without an identity
    have hping : op = .ping := by
      unfold authorise at h
      split at h
      · cases h
      · split at h
        · cases h
        · split at h
          · rename_i hno
            cases h
            exact of_decide_eq_true hno
          · grind
    subst hping
    simp [Op.write, Op.writeTok] at hop

/-- Either the database is left alone, or the handler of the operation is run. -/
theorem db_dispatchInner : (dispatchInner H s q).1.db = s.db ∨
    ∃ op ctx, authorise s q = .ok (op, ctx) ∧
      (dispatchInner H s q).1.db = (H op ctx q.body q.env s.db).1 := by
  unfold dispatchInner
  split
  · exact .inl rfl
  · exact .inl rfl
  · left
    unfold handleTokenAdd
    grind
  · left
    unfold handleTokenRevoke
    grind
  · rename_i auth
    exact .inr ⟨_, _, auth, rfl⟩

theorem readOnly_dispatchInner : (dispatchInner H s q).1.readOnly = s.readOnly := by
  unfold dispatchInner
  split
  · rfl
  · rfl
  · unfold handleTokenAdd
    grind
  · unfold handleTokenRevoke
    grind
  · rfl

inductive TokensStep (s : Server δ) (q : Request) : List AuthToken → Prop
  | keep : TokensStep s q s.tokens
  | add {ctx tok ns scope toks} (auth : authorise s q = .ok (.tokenAdd, ctx))
    (binding : tokenBinding q.body = some (ns, scope))
    (app : appendToken s.tokens tok ns scope = some toks) : TokensStep s q toks
  | revoke {ctx id toks} (auth : authorise s q = .ok (.tokenRevoke, ctx))
    (named : jrStr q.body "id" = some id) (removed : configRemoveToken id s.tokens = some toks) :
    TokensStep s q toks

theorem tokensStep_dispatchInner : TokensStep s q (dispatchInner H s q).1.tokens := by
  unfold dispatchInner
  split
  · exact .keep
  · exact .keep
  · rename_i auth
    unfold handleTokenAdd
    split
    · exact .keep
    · rename_i binding
      dsimp only
      split
      · exact .keep
      · split
        · exact .keep
        · rename_i app
          exact .add auth binding app
  · rename_i auth
    unfold handleTokenRevoke
    split
    · exact .keep
    · rename_i named
      split
      · exact .keep
      · rename_i removed
        exact .revoke auth named removed
  · exact .keep

theorem dispatchInner_revoked {persisted : Bool} (h : (dispatchInner H s q).2 = .revoked persisted) :
    ∃ id, jrStr q.body "id" = some id ∧
      configRemoveToken id s.tokens = some (dispatchInner H s q).1.tokens := by
  unfold dispatchInner at h ⊢
  split at h <;> try cases h
  · unfold handleTokenAdd at h
    grind
  · unfold handleTokenRevoke at h ⊢
    cases hid : jrStr q.body "id" with
    | none =>
      rw [hid] at h
      cases h
    | some id =>
      rw [hid] at h
      refine ⟨id, rfl, ?_⟩
      dsimp only at h ⊢
      split at h
      · cases h
      · assumption

theorem mem_ops_of_findOp {name : CString} (h : findOp name = some op) :
    ∃ text, (text, op) ∈ ops ∧ name = .ofString text := by
  obtain ⟨⟨text, op'⟩, hfind, rfl⟩ := Option.map_eq_some_iff.1 h
  exact ⟨text, List.mem_of_find?_eq_some hfind, by simpa using List.find?_some hfind⟩

end

end AegisDB
