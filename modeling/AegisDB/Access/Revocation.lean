import AegisDB.Access.Dispatch

/-!
# Revocation

What an administrator can do to the token list at run time, and what a presented secret is worth
afterwards.

`authentication_stays_on_iff`, `revoked_secret_refused_iff` and `reload_grants` say when
authentication stays on, when a revoked secret is refused, and which lists grant the same once they
are reloaded.
-/

namespace AegisDB

open List AuthToken CString

section

variable {δ ρ : Type} {H : Handlers δ ρ} {s t : Server δ} {q : Request}

/-- The request is run with an identity: any request but a `ping` that is not turned away. -/
def Executed (s : Server δ) (q : Request) : Prop := ∃ op ctx, authorise s q = .ok (op, some ctx)

/-- The request carries the secret of an entry. -/
def CarriesToken (s : Server δ) (q : Request) : Prop :=
  ∃ x, jrStr q.body "token" = some x ∧ ∃ e ∈ s.tokens, tokenDigest e = sha256 x.bytes

/-- The request of an administrator to revoke the only token there is. -/
def RevokesLast (s : Server δ) (q : Request) : Prop :=
  ∃ e x id, s.tokens = [e] ∧ e.ns = none ∧
    jrStr q.body "operation" = some (.ofString "token_revoke") ∧
    jrStr q.body "token" = some x ∧ tokenDigest e = sha256 x.bytes ∧
    jrStr q.body "id" = some id ∧ configTokenFingerprint e = id.bytes

/-! ## The last token -/

theorem findOp_eq_tokenRevoke {name : CString} :
    findOp name = some .tokenRevoke ↔ name = .ofString "token_revoke" := by
  constructor
  · intro h
    obtain ⟨text, hmem, rfl⟩ := mem_ops_of_findOp h
    simp only [ops, mem_cons, Prod.mk.injEq, reduceCtorEq, and_false, and_true, false_or,
      or_false, not_mem_nil] at hmem
    rw [hmem]
  · rintro rfl
    decide

/-- Without a token in the request, it is run only by a server without tokens. -/
theorem executed_of_not_carriesToken (h : ¬ CarriesToken s q) (hex : Executed s q) :
    s.tokens = [] := by
  obtain ⟨op, ctx, hok⟩ := hex
  by_contra hne
  have hnone := resolveIdentity_eq_none.2 ⟨hne, fun x hx e he hd => h ⟨x, hx, e, he, hd⟩⟩
  rw [(authorise_eq_ok.1 hok).2.2.1] at hnone
  cases hnone

/-- A request for the operation `get`, with a token or without. -/
def getRequest (token : Option CString) : Request where
  body := .object ((.ofString "operation", .string (.ofString "get")) ::
    token.toList.map fun x => (.ofString "token", .string x))
  env := ⟨0, true, none, true⟩

theorem jrStr_getRequest (token : Option CString) :
    jrStr (getRequest token).body "operation" = some (.ofString "get") ∧
      jrStr (getRequest token).body "token" = token := by
  have hne : (ofString "operation" = ofString "token") = False := eq_false (by decide)
  cases token <;> simp [jrStr, Json.item, getRequest, Json.asStr, hne]

theorem executed_getRequest {token : Option CString} {c : AuthCtx}
    (h : resolveIdentity s.tokens token = some c) : Executed s (getRequest token) := by
  obtain ⟨hop, htok⟩ := jrStr_getRequest token
  exact ⟨.get, c, authorise_eq_ok.2 ⟨⟨_, hop, by decide⟩, rfl, by rw [htok, h], by simp [Op.write],
    by simp [Op.global, getRequest], by simp [Op.writeTok]⟩⟩

/-- The list is emptied by the revocation of the last token, and by nothing else. -/
theorem tokens_dispatchInner_eq_nil (hs : s.tokens ≠ []) :
    (dispatchInner H s q).1.tokens = [] ↔ RevokesLast s q := by
  constructor
  · intro h
    have hstep := tokensStep_dispatchInner (H := H) (s := s) (q := q)
    rw [h] at hstep
    generalize hnil : ([] : List AuthToken) = toks at hstep
    cases hstep with
    | keep => exact absurd hnil.symm hs
    | add _ _ app =>
      obtain ⟨secret, -, rfl⟩ := Option.map_eq_some_iff.1 app
      simp at hnil
    | @revoke ctx id _ auth named removed =>
      obtain ⟨l, e, htoks, -, hid, rfl⟩ := configRemoveToken_eq_some.1 removed
      obtain ⟨rfl, hbehind⟩ := append_eq_nil_iff.1 hnil.symm
      rw [hbehind, nil_append] at htoks
      cases ctx with
      | none =>
        unfold authorise at auth
        grind [Op.noAuth]
      | some ctx =>
        obtain ⟨⟨name, hname, hfind⟩, -, hres, -, hns, -⟩ := authorise_eq_ok.1 auth
        rw [findOp_eq_tokenRevoke.1 hfind] at hname
        rw [resolveIdentity, if_neg hs, Option.bind_eq_some_iff] at hres
        obtain ⟨x, hx, hmatch⟩ := hres
        obtain ⟨e', he', rfl⟩ := Option.map_eq_some_iff.1 hmatch
        obtain ⟨hmem, hd⟩ := mem_of_matchToken he'
        rw [htoks, mem_singleton] at hmem
        subst hmem
        refine ⟨e', x, id, htoks, ?_, hname, hx, hd, named, hid⟩
        cases hnone : e'.ns with
        | none => rfl
        | some ns =>
          have := (hns (by simp [identity, hnone])).2
          cases this
  · rintro ⟨e, x, id, htoks, hns, hop, hx, hd, hid, hfp⟩
    have hres : resolveIdentity s.tokens (some x) = some e.identity := by
      simp [resolveIdentity, htoks, matchToken, hd]
    have hauth : authorise s q = .ok (.tokenRevoke, some e.identity) :=
      authorise_eq_ok.2 ⟨⟨_, hop, by decide⟩, rfl, by rw [hx, hres], by simp [Op.write],
        by simp [identity, hns], by simp [Op.writeTok]⟩
    simp [dispatchInner, hauth, handleTokenRevoke, hid, htoks, configRemoveToken, hfp]

theorem serverStep_total (s : Server δ) (q : Request) : ∃ t, serverStep H s q = some t := ⟨_, rfl⟩

/-- **Authentication stays on** exactly as long as no request revokes the last token: until then no
request without a token of the list is run. -/
theorem authentication_stays_on_iff (hs : s.tokens ≠ []) (qs : List Request) :
    (∀ pre, pre <+: qs → ∀ t, run (serverStep H) s pre = some t →
        ∀ q, ¬ CarriesToken t q → ¬ Executed t q) ↔
      Along (serverStep H) (fun t q => ¬ RevokesLast t q) s qs := by
  have hiff : ∀ t : Server δ, (∀ q, ¬ CarriesToken t q → ¬ Executed t q) ↔ t.tokens ≠ [] := by
    intro t
    constructor
    · intro h hnil
      refine h (getRequest none) ?_ (executed_getRequest (by rw [hnil]; rfl))
      rintro ⟨x, hx, -⟩
      rw [(jrStr_getRequest none).2] at hx
      cases hx
    · exact fun h q hq hex => h (executed_of_not_carriesToken hq hex)
  simp only [hiff]
  rw [forall_prefix_iff_along
    serverStep_total ?_ (along_of_forall (fun _ _ => trivial) s qs), and_iff_right hs]
  rintro s q _ hs - ⟨⟩
  rw [Ne, tokens_dispatchInner_eq_nil hs]

end

/-! ### A server with one token -/

def adminToken (secret : String) : AuthToken := ⟨.plain (.ofString secret), none, .admin⟩

/-- A server with the tokens of administrators. -/
def adminServer (secrets : List String) : Server Unit :=
  ⟨secrets.map adminToken, none, false, ()⟩

def idleHandlers : Handlers Unit Unit := fun _ _ _ _ _ => ((), ())

def secretId (secret : String) : CString :=
  .ofBytes (sha256 (CString.ofString secret).bytes).fingerprint

theorem bytes_secretId (secret : String) :
    (secretId secret).bytes = (sha256 (ofString secret).bytes).fingerprint :=
  bytes_ofBytes fun h => absurd (mem_hexEncode h).1 (by simp)

/-- The request with a token to revoke that of a secret. -/
def revokeRequest (token secret : String) : Request where
  body := .object
    [(.ofString "operation", .string (.ofString "token_revoke")),
      (.ofString "token", .string (.ofString token)), (.ofString "id", .string (secretId secret))]
  env := ⟨0, true, none, true⟩

theorem jrStr_revokeRequest (token secret : String) :
    jrStr (revokeRequest token secret).body "operation" = some (.ofString "token_revoke") ∧
      jrStr (revokeRequest token secret).body "token" = some (.ofString token) ∧
      jrStr (revokeRequest token secret).body "id" = some (secretId secret) :=
  ⟨rfl, rfl, rfl⟩

theorem not_revokesLast_getRequest (s : Server Unit) (token : Option CString) :
    ¬ RevokesLast s (getRequest token) := by
  rintro ⟨e, x, id, -, -, hop, -⟩
  rw [(jrStr_getRequest token).1] at hop
  exact absurd hop (by decide)

theorem adminServer_stays_on :
    (adminServer ["a"]).tokens ≠ [] ∧ ∀ pre, pre <+: [getRequest none] → ∀ t,
      run (serverStep idleHandlers) (adminServer ["a"]) pre = some t →
        ∀ q, ¬ CarriesToken t q → ¬ Executed t q :=
  ⟨by decide, (authentication_stays_on_iff (by decide) _).2
    ⟨not_revokesLast_getRequest _ _, fun _ _ => trivial⟩⟩

/-- The administrator revokes the only token; then a request without a token is run without
restriction. -/
theorem adminServer_turned_off :
    (adminServer ["a"]).tokens ≠ [] ∧ jrStr (getRequest none).body "token" = none ∧
      Executed (dispatchInner idleHandlers (adminServer ["a"]) (revokeRequest "a" "a")).1
        (getRequest none) := by
  have hlast : RevokesLast (adminServer ["a"]) (revokeRequest "a" "a") :=
    ⟨adminToken "a", .ofString "a", secretId "a", rfl, rfl, rfl, rfl, rfl, rfl,
      (bytes_secretId "a").symm⟩
  have hnil := (tokens_dispatchInner_eq_nil (H := idleHandlers) (by decide)).2 hlast
  exact ⟨by decide, (jrStr_getRequest none).2,
    executed_getRequest (by rw [hnil]; rfl)⟩

section

variable {δ ρ : Type} {H : Handlers δ ρ} {s : Server δ} {q : Request}

/-- No request that presents the secret is run. -/
def Refused (s : Server δ) (x : CString) : Prop :=
  ∀ q, jrStr q.body "token" = some x → ¬ Executed s q

theorem refused_iff {x : CString} :
    Refused s x ↔ s.tokens ≠ [] ∧ ∀ e ∈ s.tokens, tokenDigest e ≠ sha256 x.bytes := by
  have hnone : s.tokens ≠ [] ∧ (∀ e ∈ s.tokens, tokenDigest e ≠ sha256 x.bytes) ↔
      resolveIdentity s.tokens (some x) = none := by
    rw [resolveIdentity_eq_none]
    simp
  rw [hnone]
  constructor
  · intro h
    by_contra hsome
    obtain ⟨ctx, hctx⟩ := Option.ne_none_iff_exists'.1 hsome
    exact h (getRequest (some x)) (jrStr_getRequest (some x)).2 (executed_getRequest hctx)
  · rintro h q hq ⟨op, ctx, hok⟩
    have hres := (authorise_eq_ok.1 hok).2.2.1
    rw [hq, h] at hres
    cases hres

/-- The request adds no token of that fingerprint. -/
def AddsNone (H : Handlers δ ρ) (id : CString) (s : Server δ) (q : Request) : Prop :=
  ∀ e, (dispatchInner H s q).1.tokens = s.tokens ++ [e] → configTokenFingerprint e ≠ id.bytes

/-- A request that adds no token of a fingerprint leaves no new entry of it. -/
theorem mem_tokens_dispatchInner {id : CString} (h : AddsNone H id s q) {e : AuthToken}
    (he : e ∈ (dispatchInner H s q).1.tokens) (hid : configTokenFingerprint e = id.bytes) :
    e ∈ s.tokens := by
  have hstep := tokensStep_dispatchInner (H := H) (s := s) (q := q)
  unfold AddsNone at h
  generalize (dispatchInner H s q).1.tokens = toks at hstep h he
  cases hstep with
  | keep => exact he
  | add _ _ app =>
    obtain ⟨secret, -, rfl⟩ := Option.map_eq_some_iff.1 app
    obtain he | he := mem_append.1 he
    · exact he
    · rw [mem_singleton] at he
      subst he
      exact absurd hid (h _ rfl)
  | revoke _ _ removed =>
    obtain ⟨l, e', htoks, -, -, rfl⟩ := configRemoveToken_eq_some.1 removed
    rw [htoks]
    obtain he | he := mem_append.1 he <;> simp [he]

/-- **A revoked secret is refused** until such a token is added again, exactly when no later entry
has the same digest and no later request revokes the last token. -/
theorem revoked_secret_refused_iff {id : CString} (hid : jrStr q.body "id" = some id)
    {persisted : Bool} (hrevoked : (dispatchInner H s q).2 = .revoked persisted)
    (hrest : (dispatchInner H s q).1.tokens ≠ []) {x : CString}
    (hx : (sha256 x.bytes).fingerprint = id.bytes) {qs : List Request}
    (hadd : Along (serverStep H) (AddsNone H id) (dispatchInner H s q).1 qs) :
    (∀ pre, pre <+: qs → ∀ t, run (serverStep H) (dispatchInner H s q).1 pre = some t →
        Refused t x) ↔
      (∀ e ∈ behindFirst id s.tokens, tokenDigest e ≠ sha256 x.bytes) ∧
        Along (serverStep H) (fun t q => ¬ RevokesLast t q) (dispatchInner H s q).1 qs := by
  have hfp : ∀ e : AuthToken, tokenDigest e = sha256 x.bytes →
      configTokenFingerprint e = id.bytes := by
    intro e he
    rw [configTokenFingerprint, he, hx]
  -- what the revocation leaves
  obtain ⟨l, htoks, hl⟩ : ∃ l, (dispatchInner H s q).1.tokens = l ++ behindFirst id s.tokens ∧
      ∀ e ∈ l, configTokenFingerprint e ≠ id.bytes := by
    obtain ⟨id', hid', hrem⟩ := dispatchInner_revoked hrevoked
    cases hid.symm.trans hid'
    obtain ⟨l, e, -, hl, -, htoks⟩ := configRemoveToken_eq_some.1 hrem
    exact ⟨l, htoks, hl⟩
  simp only [refused_iff]
  rw [forall_prefix_iff_along serverStep_total ?_ hadd]
  · refine and_congr_left fun _ => ?_
    rw [and_iff_right hrest, htoks]
    constructor
    · exact fun h e he => h e (mem_append_right _ he)
    · intro h e he hd
      obtain he | he := mem_append.1 he
      · exact hl e he (hfp e hd)
      · exact h e he hd
  · rintro t q _ ⟨hne, hall⟩ hnone ⟨⟩
    rw [Ne, tokens_dispatchInner_eq_nil hne, and_iff_left]
    exact fun e he hd => hall e (mem_tokens_dispatchInner hnone he (hfp e hd)) hd

end

theorem tokens_getRequest (s : Server Unit) (token : Option CString) :
    (dispatchInner idleHandlers s (getRequest token)).1.tokens = s.tokens := by
  have hop : ∀ op ctx, authorise s (getRequest token) = .ok (op, ctx) → op = .get := by
    intro op ctx h
    obtain ⟨name, hname, hfind⟩ := findOp_of_authorise h
    cases (jrStr_getRequest token).1.symm.trans hname
    exact (Option.some.inj hfind).symm
  have hstep := tokensStep_dispatchInner (H := idleHandlers) (s := s) (q := getRequest token)
  generalize (dispatchInner idleHandlers s (getRequest token)).1.tokens = toks at hstep
  cases hstep with
  | keep => rfl
  | add auth | revoke auth => cases hop _ _ auth

theorem dispatchInner_revokeRequest (secrets : List String) (admin first : String) :
    dispatchInner idleHandlers (adminServer (first :: secrets ++ [admin]))
        (revokeRequest admin first) =
      (adminServer (secrets ++ [admin]), .revoked false) := by
  have hres : resolveIdentity (adminServer (first :: secrets ++ [admin])).tokens
      (some (.ofString admin)) = some ⟨none, true⟩ := by
    simp [resolveIdentity, adminServer, matchToken, adminToken, tokenDigest, identity]
  have hauth : authorise (adminServer (first :: secrets ++ [admin])) (revokeRequest admin first) =
      .ok (.tokenRevoke, some ⟨none, true⟩) :=
    authorise_eq_ok.2 ⟨⟨_, rfl, by decide⟩, rfl, hres, by simp [Op.write], by simp,
      by simp [Op.writeTok]⟩
  have hrem : configRemoveToken (secretId first) (adminServer (first :: secrets ++ [admin])).tokens =
      some (adminServer (secrets ++ [admin])).tokens := by
    simp only [adminServer, cons_append, map_cons, configRemoveToken, bytes_secretId]
    exact if_pos rfl
  simp only [dispatchInner, hauth, handleTokenRevoke, (jrStr_revokeRequest admin first).2.2, hrem]
  rfl

theorem adminServer_revoked_refused :
    (dispatchInner idleHandlers (adminServer ["b", "a"]) (revokeRequest "a" "b")).2 =
        .revoked false ∧
      ∀ pre, pre <+: [getRequest none] → ∀ t, run (serverStep idleHandlers)
          (dispatchInner idleHandlers (adminServer ["b", "a"]) (revokeRequest "a" "b")).1 pre =
            some t → Refused t (.ofString "b") := by
  have hrev : dispatchInner idleHandlers (adminServer ["b", "a"]) (revokeRequest "a" "b") =
      (adminServer ["a"], .revoked false) := dispatchInner_revokeRequest [] "a" "b"
  have hadd : Along (serverStep idleHandlers) (AddsNone idleHandlers (secretId "b"))
      (dispatchInner idleHandlers (adminServer ["b", "a"]) (revokeRequest "a" "b")).1
      [getRequest none] := by
    refine ⟨fun e he => ?_, fun _ _ => trivial⟩
    rw [tokens_getRequest] at he
    simp at he
  have hiff := revoked_secret_refused_iff (jrStr_revokeRequest "a" "b").2.2
    (congrArg Prod.snd hrev) (by rw [hrev]; decide) (bytes_secretId "b").symm hadd
  have hbehind : behindFirst (secretId "b") (adminServer ["b", "a"]).tokens = [adminToken "a"] := by
    have hfp : configTokenFingerprint (adminToken "b") = (secretId "b").bytes :=
      (bytes_secretId "b").symm
    simp [behindFirst, adminServer, hfp]
  refine ⟨congrArg Prod.snd hrev,
    hiff.2 ⟨?_, not_revokesLast_getRequest _ _, fun _ _ => trivial⟩⟩
  rw [hbehind]
  decide +kernel

/-- The token `b`, which is there twice, is revoked and the revocation acknowledged; the secret `b`
is still that of a token. -/
theorem twice_listed_still_executed :
    (dispatchInner idleHandlers (adminServer ["b", "b", "a"]) (revokeRequest "a" "b")).2 =
        .revoked false ∧
      (sha256 (CString.ofString "b").bytes).fingerprint = (secretId "b").bytes ∧
      Executed (dispatchInner idleHandlers (adminServer ["b", "b", "a"]) (revokeRequest "a" "b")).1
        (getRequest (some (.ofString "b"))) := by
  have hrev : dispatchInner idleHandlers (adminServer ["b", "b", "a"]) (revokeRequest "a" "b") =
      (adminServer ["b", "a"], .revoked false) := dispatchInner_revokeRequest ["b"] "a" "b"
  refine ⟨congrArg Prod.snd hrev, (bytes_secretId "b").symm, ?_⟩
  rw [hrev]
  have hsome : resolveIdentity (adminServer ["b", "a"]).tokens (some (.ofString "b")) ≠ none :=
    fun hnone => (resolveIdentity_eq_none.1 hnone).2 _ rfl (adminToken "b")
      (by simp [adminServer]) rfl
  obtain ⟨c, hc⟩ := Option.ne_none_iff_exists'.1 hsome
  exact executed_getRequest hc

section

variable {δ ρ : Type} {H : Handlers δ ρ} {s t : Server δ} {q : Request}

/-- What a secret is worth: nothing, or a namespace and a scope. -/
def grants (toks : List AuthToken) (x : CString) : Option (Option CString × TokenScope) :=
  (matchToken toks (sha256 x.bytes)).map fun e => (e.ns, e.scope)

theorem filed_of_tokenBinding {req : Json} {ns : Option CString} {scope : TokenScope}
    (h : tokenBinding req = some (ns, scope)) (secret : TokenSecret) :
    AuthToken.Filed ⟨secret, ns, scope⟩ := by
  simp only [tokenBinding, Option.bind_eq_some_iff] at h
  obtain ⟨scope', -, h⟩ := h
  split at h
  · cases h
    exact filed_admin secret
  · rename_i hadmin
    obtain ⟨n, -, h⟩ := Option.bind_eq_some_iff.1 h
    obtain ⟨hok, h⟩ := Option.ite_none_right_eq_some.1 h
    cases h
    simp only [tokenNamespaceOk, Bool.and_eq_true, decide_eq_true_eq, all_eq_true,
      Bool.not_eq_true', Bool.or_eq_false_iff, decide_eq_false_iff_not, not_le] at hok
    refine ⟨by simp [hadmin], ?_, ?_⟩ <;> rintro _ ⟨⟩
    · intro hnil
      simp [hnil] at hok
    · intro c hc
      have hgt := (hok.2 c hc).1
      refine ⟨blank_eq_false (by omega), ?_⟩
      rintro rfl
      simp at hgt

theorem filed_dispatchInner (hs : ∀ e ∈ s.tokens, e.Filed) :
    ∀ e ∈ (dispatchInner H s q).1.tokens, e.Filed := by
  have hstep := tokensStep_dispatchInner (H := H) (s := s) (q := q)
  generalize (dispatchInner H s q).1.tokens = toks at hstep
  cases hstep with
  | keep => exact hs
  | add _ binding app => exact filed_appendToken app hs (filed_of_tokenBinding binding)
  | revoke _ _ removed =>
    obtain ⟨l, e', htoks, -, -, rfl⟩ := configRemoveToken_eq_some.1 removed
    intro e he
    apply hs
    rw [htoks]
    obtain he | he := mem_append.1 he <;> simp [he]

theorem length_line_le {e : AuthToken} (he : e.Filed) (h : ∀ ns ∈ e.ns, ns.bytes.length ≤ 948) :
    e.line.length ≤ 1023 := by
  have hsec : (hashMark ++ hexEncode (tokenDigest e).1).length = 71 := by
    rw [length_append, length_hexEncode, (tokenDigest e).2]
    rfl
  rw [line, length_append, hsec, AuthToken.binding]
  cases hns : e.ns with
  | none => simp
  | some ns =>
    have hlen := h ns hns
    have hscope : e.scope ≠ .admin := fun hadmin => by simp [he.ns_eq_none_iff.2 hadmin] at hns
    have hname : e.scope.name.length = 2 := by
      cases hsc : e.scope with
      | admin => exact absurd hsc hscope
      | ro | rw => rfl
    simp only [length_cons, length_append, hname]
    omega

/-- **Reloading a token file.** A list that was read from a file and changed at run time is
written so that every secret is granted the same when it is read, if no namespace is longer than
948 bytes. -/
theorem reload_grants {file : Bytes} (hload : loadTokenFile [] file = some s.tokens)
    {qs : List Request} (hrun : run (serverStep H) s qs = some t)
    (hns : ∀ e ∈ t.tokens, ∀ ns ∈ e.ns, ns.bytes.length ≤ 948) :
    ∃ toks, loadTokenFile [] (configWriteTokenFile t.tokens) = some toks ∧
      (∀ x, grants toks x = grants t.tokens x) ∧
      ∀ token, resolveIdentity toks token = resolveIdentity t.tokens token := by
  have hfiled : ∀ e ∈ t.tokens, e.Filed := by
    refine run_invariant_of_step (I := fun s : Server δ => ∀ e ∈ s.tokens, e.Filed) ?_
      (filed_loadTokenFile hload (by simp)) hrun
    rintro s q _ hs ⟨⟩
    exact filed_dispatchInner hs
  have hmatch : ∀ d, matchToken (t.tokens.map sealed) d =
      (matchToken t.tokens d).map sealed := matchToken_map tokenDigest_sealed
  refine ⟨t.tokens.map sealed, ?_, ?_, ?_⟩
  · exact loadTokenFile_configWriteTokenFile hfiled
      (fun e he => length_line_le (hfiled e he) (hns e he)) []
  · intro x
    rw [grants, grants, hmatch, Option.map_map]
    rfl
  · intro token
    unfold resolveIdentity
    simp only [map_eq_nil_iff, hmatch, Option.map_map]
    rfl

end

/-- A file with one read-only token `k`, of a given namespace. -/
def tokenFileOf (ns : Bytes) : Bytes := 107 :: 32 :: ns ++ [32, 114, 111, 10]

def tokenOf (ns : Bytes) : AuthToken := ⟨.plain (.ofString "k"), some (.ofBytes ns), .ro⟩

theorem short_namespace_reload_grants :
    ∃ toks, loadTokenFile [] (configWriteTokenFile [tokenOf [110]]) = some toks ∧
      (∀ x, grants toks x = grants [tokenOf [110]] x) ∧
      ∀ token, resolveIdentity toks token = resolveIdentity [tokenOf [110]] token := by
  have hload : loadTokenFile [] (tokenFileOf [110]) = some [tokenOf [110]] := by decide +kernel
  have hns : ∀ e ∈ [tokenOf [110]], ∀ ns ∈ e.ns, ns.bytes.length ≤ 948 := by decide +kernel
  generalize [tokenOf [110]] = toks at hload hns ⊢
  exact reload_grants (H := idleHandlers) (s := ⟨toks, none, false, ()⟩) hload (run_nil _) hns

def longNs : Bytes := List.replicate 950 110

theorem longNs_reload :
    loadTokenFile [] (tokenFileOf longNs) = some [tokenOf longNs] ∧
      loadTokenFile [] (configWriteTokenFile [tokenOf longNs]) =
        some [{ (tokenOf longNs).sealed with scope := .rw }, adminToken "ro"] := by
  decide +kernel

/-- With a namespace of 950 bytes, the list read back takes `ro`, which was no secret, for an
administrator's. -/
theorem longNs_escalates :
    ∃ toks, loadTokenFile [] (tokenFileOf longNs) = some toks ∧
      resolveIdentity toks (some (.ofString "ro")) = none ∧
      ∃ toks', loadTokenFile [] (configWriteTokenFile toks) = some toks' ∧
        resolveIdentity toks' (some (.ofString "ro")) = some ⟨none, true⟩ := by
  refine ⟨_, longNs_reload.1, ?_, _, longNs_reload.2, ?_⟩
  · have hne : sha256 (ofString "k").bytes ≠ sha256 (ofString "ro").bytes := by
      decide +kernel
    rw [resolveIdentity_eq_none]
    refine ⟨by simp, ?_⟩
    rintro _ ⟨⟩ e he
    rw [mem_singleton.1 he]
    exact hne
  · generalize { (tokenOf longNs).sealed with scope := .rw } = e
    have hd : tokenDigest (adminToken "ro") = sha256 (ofString "ro").bytes := rfl
    rw [resolveIdentity, if_neg (by simp), Option.bind_some,
      show [e, adminToken "ro"] = [e] ++ [adminToken "ro"] from rfl, matchToken_append, hd,
      if_pos rfl]
    rfl

end AegisDB
