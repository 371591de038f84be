import AegisDB.Access.Tokens
import Mathlib.Data.List.DropRight

/-!
# The token file

The reader takes a line at a time into a buffer of 1024 bytes, so that a longer line is read as
several; it trims each, skips blank lines and comments, and splits the others at blanks
(`loadTokenFile`). The writer puts one line for each entry, with the digest of its secret
(`configWriteTokenFile`).

As long as the lines fit the buffer, the reader gets back the entries that were written
(`loadTokenFile_configWriteTokenFile`).
-/

namespace AegisDB

open List CString AuthToken TokenScope Option

variable {b : Bytes} {c : UInt8} {t : AuthToken}
variable {l : Bytes} {toks' : List AuthToken}

/-! ## Reading -/

def blank (c : UInt8) : Bool := c = 32 || c = 9

/-- What is trimmed from the end of a line. -/
def lineEnd (c : UInt8) : Bool := c = 10 || c = 13 || c = 32 || c = 9

/-- The length of the first line, its newline included. -/
def lineLength : Bytes → ℕ
  | [] => 0
  | c :: b => if c = 10 then 1 else lineLength b + 1

/-- The bytes `fgets` reads into `line[1024]`. -/
def fgetsLength (b : Bytes) : ℕ := min 1023 (lineLength b)

/-- The successive contents of the buffer; the first argument bounds their number. -/
def fileLinesWithin : ℕ → Bytes → List Bytes
  | 0, _ => []
  | n + 1, b =>
    if b = [] then [] else b.take (fgetsLength b) :: fileLinesWithin n (b.drop (fgetsLength b))

/-- The successive contents of the buffer, until the end of the file. -/
def fileLines (b : Bytes) : List Bytes := fileLinesWithin b.length b

/-- `next_field`: the field, and what follows it. -/
def nextField (s : Bytes) : Bytes × Option Bytes :=
  let field := s.takeWhile fun c => !blank c
  let rest := (s.drop field.length).dropWhile blank
  (field, if rest = [] then none else some rest)

/-- `scope_name`. -/
def TokenScope.name : TokenScope → Bytes
  | .ro => [114, 111]
  | .rw => [114, 119]
  | .admin => [97, 100, 109, 105, 110]

/-- `parse_token_line`; `none` is its error. -/
def parseTokenLine (toks : List AuthToken) (s : Bytes) : Option (List AuthToken) :=
  match nextField s with
  | (tok, none) => appendToken toks (.ofBytes tok) none .admin
  | (tok, some s) =>
    match nextField s with
    | (ns, none) =>
      if ns = TokenScope.admin.name then appendToken toks (.ofBytes tok) none .admin
      else appendToken toks (.ofBytes tok) (some (.ofBytes ns)) .rw
    | (ns, some scope) =>
      -- the rest of the line, its blanks included, is the scope
      if scope = TokenScope.ro.name then appendToken toks (.ofBytes tok) (some (.ofBytes ns)) .ro
      else if scope = TokenScope.rw.name then
        appendToken toks (.ofBytes tok) (some (.ofBytes ns)) .rw
      else if scope = TokenScope.admin.name then appendToken toks (.ofBytes tok) none .admin
      else none

/-- A line as the loop of `load_token_file` trims it. -/
def trimLine (line : Bytes) : Bytes :=
  ((CString.ofBytes line).bytes.dropWhile blank).rdropWhile lineEnd

/-- One turn of the loop of `load_token_file`. -/
def loadLine (toks : List AuthToken) (line : Bytes) : Option (List AuthToken) :=
  let s := trimLine line
  if s = [] ∨ s.head? = some 35 then some toks else parseTokenLine toks s

/-- `load_token_file`; `none` is its error. -/
def loadTokenFile (toks : List AuthToken) (file : Bytes) : Option (List AuthToken) :=
  (fileLines file).foldlM loadLine toks

/-- What is written behind the digest: the namespace and the scope of an entry that has one. -/
def AuthToken.binding (t : AuthToken) : Bytes :=
  match t.ns with
  | some ns => 32 :: (ns.bytes ++ 32 :: t.scope.name)
  | none => []

/-- The line of an entry, without its newline. -/
def AuthToken.line (t : AuthToken) : Bytes := hashMark ++ hexEncode (tokenDigest t).1 ++ t.binding

def configWriteTokenFile (toks : List AuthToken) : Bytes :=
  toks.flatMap fun t => t.line ++ [10]

/-! ## Lines -/

theorem lineLength_pos (h : b ≠ []) : 0 < lineLength b := by
  cases b with
  | nil => exact absurd rfl h
  | cons c b =>
    unfold lineLength
    split <;> omega

theorem fgetsLength_pos (h : b ≠ []) : 0 < fgetsLength b := lt_min (by omega) (lineLength_pos h)

theorem fileLinesWithin_of_le {n : ℕ} (h : b.length ≤ n) : fileLinesWithin n b = fileLines b := by
  have key : ∀ m n b, b.length ≤ m → m ≤ n → fileLinesWithin n b = fileLinesWithin m b := by
    intro m
    induction m with
    | zero =>
      intro n b hb _
      obtain rfl : b = [] := length_eq_zero_iff.1 (by omega)
      cases n <;> rfl
    | succ m ih =>
      intro n b hb hn
      obtain ⟨n, rfl⟩ : ∃ k, n = k + 1 := ⟨n - 1, by omega⟩
      unfold fileLinesWithin
      split
      · rfl
      · rename_i hne
        have hpos := fgetsLength_pos hne
        rw [ih n _ (by rw [length_drop]; omega) (by omega)]
  exact key b.length n b le_rfl h

@[simp] theorem fileLines_nil : fileLines [] = [] := rfl

theorem fileLines_of_ne (h : b ≠ []) :
    fileLines b = b.take (fgetsLength b) :: fileLines (b.drop (fgetsLength b)) := by
  obtain ⟨n, hn⟩ : ∃ n, b.length = n + 1 := Nat.exists_eq_succ_of_ne_zero (by simpa using h)
  have hpos := fgetsLength_pos h
  rw [fileLines, hn, fileLinesWithin, if_neg h, fileLinesWithin_of_le]
  rw [length_drop]
  omega

theorem lineLength_append (h : (10 : UInt8) ∉ l) (b : Bytes) :
    lineLength (l ++ 10 :: b) = l.length + 1 := by
  induction l with
  | nil => rfl
  | cons c l ih =>
    rw [cons_append, lineLength, if_neg (by simpa using fun hc => h (by simp [hc])),
      ih fun hmem => h (by simp [hmem]), length_cons]

/-- A line that fits the buffer is read at once; when it fills the buffer, its newline is read
after it. -/
theorem fileLines_append (h : (10 : UInt8) ∉ l) (hlen : l.length ≤ 1023) (b : Bytes) :
    fileLines (l ++ 10 :: b) = (l ++ [10]) :: fileLines b ∨
      fileLines (l ++ 10 :: b) = l :: [10] :: fileLines b := by
  have hget : fgetsLength (l ++ 10 :: b) = min 1023 (l.length + 1) := by
    rw [fgetsLength, lineLength_append h]
  rw [fileLines_of_ne (by simp), hget]
  by_cases hfull : l.length = 1023
  · right
    rw [hfull, min_eq_left (by omega), take_left' hfull, drop_left' hfull,
      fileLines_of_ne (by simp)]
    rfl
  · left
    rw [min_eq_right (by omega), show l ++ 10 :: b = (l ++ [10]) ++ b by simp,
      take_left' (by simp), drop_left' (by simp)]

theorem not_mem_dropLast_of_lineLength (b : Bytes) {n : ℕ} (h : n ≤ lineLength b) :
    (10 : UInt8) ∉ (b.take n).dropLast := by
  induction b generalizing n with
  | nil => simp
  | cons c b ih =>
    cases n with
    | zero => simp
    | succ n =>
      rw [lineLength] at h
      rw [take_succ_cons]
      split at h
      · obtain rfl : n = 0 := by omega
        simp
      · rename_i hc
        by_cases hnil : b.take n = []
        · simp [hnil]
        · rw [dropLast_cons_of_ne_nil hnil, mem_cons, not_or]
          exact ⟨Ne.symm hc, ih (by omega)⟩

theorem not_mem_dropLast_fileLines (h : l ∈ fileLines b) : (10 : UInt8) ∉ l.dropLast := by
  have key : ∀ n b, l ∈ fileLinesWithin n b → (10 : UInt8) ∉ l.dropLast := by
    intro n
    induction n with
    | zero => simp [fileLinesWithin]
    | succ n ih =>
      intro b hb
      unfold fileLinesWithin at hb
      split at hb
      · cases hb
      · obtain rfl | hb := mem_cons.1 hb
        · exact not_mem_dropLast_of_lineLength b (min_le_right _ _)
        · exact ih _ hb
  exact key _ _ h

theorem bytes_ofBytes (h : (0 : UInt8) ∉ b) : (ofBytes b).bytes = b := by
  change b.takeWhile (· ≠ 0) = b
  rw [takeWhile_eq_self_iff]
  intro c hc
  simpa using fun h0 : c = 0 => h (h0 ▸ hc)

theorem nextField_of_not_blank {w : Bytes} (h : ∀ c ∈ w, blank c = false) :
    nextField w = (w, none) := by
  have hw : (w.takeWhile fun c => !blank c) = w :=
    takeWhile_eq_self_iff.2 fun c hc => by simp [h c hc]
  simp [nextField, hw]

theorem nextField_append {w r : Bytes} (h : ∀ c ∈ w, blank c = false) (hr : r ≠ [])
    (hhead : ∀ c ∈ r.head?, blank c = false) : nextField (w ++ 32 :: r) = (w, some r) := by
  have hw : ((w ++ 32 :: r).takeWhile fun c => !blank c) = w := by
    rw [takeWhile_append_of_pos fun c hc => by simp [h c hc]]
    simp [blank]
  have hd : (32 :: r).dropWhile blank = r := by
    obtain ⟨c, r, rfl⟩ := exists_cons_of_ne_nil hr
    simp [hhead c (by simp), show blank 32 = true from rfl]
  simp [nextField, hw, hd, hr]

theorem not_blank_of_mem_nextField {s : Bytes} (h : c ∈ (nextField s).1) :
    blank c = false ∧ c ∈ s := by
  refine ⟨by simpa using mem_takeWhile_imp h, (takeWhile_sublist _).subset h⟩

/-- What follows a field starts with the next one, and is part of the line. -/
theorem nextField_rest {s r : Bytes} (h : (nextField s).2 = some r) :
    (nextField r).1 ≠ [] ∧ ∀ c ∈ r, c ∈ s := by
  simp only [nextField, ite_none_left_eq_some, some.injEq] at h
  obtain ⟨hne, rfl⟩ := h
  constructor
  · have hhead := head_dropWhile_not blank hne
    obtain ⟨c, t, hct⟩ := exists_cons_of_ne_nil hne
    simp only [hct, head_cons] at hhead
    simp [nextField, hct, hhead]
  · intro c hc
    exact mem_of_mem_drop ((dropWhile_sublist _).subset hc)

theorem trimLine_append {w e : Bytes} (h0 : (0 : UInt8) ∉ w ++ e) (hne : w ≠ [])
    (hhead : blank (w.head hne) = false) (hlast : lineEnd (w.getLast hne) = false)
    (he : ∀ c ∈ e, lineEnd c = true) : trimLine (w ++ e) = w := by
  have hdrop : (w ++ e).dropWhile blank = w ++ e := by
    obtain ⟨c, w, rfl⟩ := exists_cons_of_ne_nil hne
    simp [show blank c = false from hhead]
  have htrim : ∀ e : Bytes, (∀ c ∈ e, lineEnd c = true) → (w ++ e).rdropWhile lineEnd = w := by
    intro e
    induction e using reverseRecOn with
    | nil =>
      intro _
      rw [append_nil, rdropWhile_eq_self_iff]
      intro _
      simp [hlast]
    | append_singleton e c ih =>
      intro he
      rw [← append_assoc, rdropWhile_concat_pos _ _ _ (he c (by simp))]
      exact ih fun x hx => he x (by simp [hx])
  rw [trimLine, bytes_ofBytes h0, hdrop, htrim e he]

theorem trimLine_infix (l : Bytes) : trimLine l <:+: l := by
  have htake : (ofBytes l).bytes <+: l := takeWhile_prefix _
  exact (List.rdropWhile_prefix _ _).isInfix.trans
    ((dropWhile_suffix _).isInfix.trans htake.isInfix)

theorem not_mem_trimLine (h : (10 : UInt8) ∉ l.dropLast) : (10 : UInt8) ∉ trimLine l := by
  intro hmem
  obtain ⟨u, v, huv⟩ := append_of_mem hmem
  have hv : v ≠ [] := by
    rintro rfl
    have hlast := rdropWhile_last_not lineEnd ((ofBytes l).bytes.dropWhile blank)
      (ne_nil_of_mem hmem)
    change ¬ lineEnd ((trimLine l).getLast _) = true at hlast
    simp [huv, lineEnd] at hlast
  -- so the newline is not the last byte of the line either
  obtain ⟨x, y, hxy⟩ := trimLine_infix l
  rw [huv] at hxy
  have hsplit : l = (x ++ u ++ [10]) ++ (v ++ y) := by
    rw [← hxy]
    simp
  apply h
  rw [hsplit, dropLast_append_of_ne_nil (by simp [hv])]
  simp

/-! ## What is written is read back -/

/-- An entry that fits on a line: an administrator's is bound to no namespace, and a namespace is
one field. -/
structure AuthToken.Filed (t : AuthToken) : Prop where
  ns_eq_none_iff : t.ns = none ↔ t.scope = .admin
  ns_ne_nil : ∀ ns ∈ t.ns, ns.bytes ≠ []
  ns_field : ∀ ns ∈ t.ns, ∀ c ∈ ns.bytes, blank c = false ∧ c ≠ 10

/-- The entry with the digest of its secret in place of it. -/
def AuthToken.sealed (t : AuthToken) : AuthToken := { t with secret := .hashed (tokenDigest t) }

@[simp] theorem tokenDigest_sealed (t : AuthToken) : tokenDigest t.sealed = tokenDigest t := rfl

theorem mem_hashedSecret (h : c ∈ hashMark ++ hexEncode (tokenDigest t).1) :
    36 ≤ c.toNat ∧ c.toNat ≤ 115 := by
  obtain h | h := mem_append.1 h
  · have hall : ∀ c ∈ hashMark, 36 ≤ c.toNat ∧ c.toNat ≤ 115 := by simp [hashMark]
    exact hall c h
  · have := mem_hexEncode h
    omega

theorem parse_hashedSecret (t : AuthToken) :
    TokenSecret.parse (.ofBytes (hashMark ++ hexEncode (tokenDigest t).1)) =
      some (.hashed (tokenDigest t)) := by
  have hbytes : (ofBytes (hashMark ++ hexEncode (tokenDigest t).1)).bytes =
      hashMark ++ hexEncode (tokenDigest t).1 := by
    apply bytes_ofBytes
    intro h
    have := mem_hashedSecret h
    simp at this
  have hlen : (hexEncode (tokenDigest t).1).length = 64 := by
    rw [length_hexEncode, (tokenDigest t).2]
  have hmark : hashMark.length = 7 := rfl
  rw [TokenSecret.parse, hbytes, take_left' hmark, if_pos rfl, drop_left' hmark]
  simp [hlen, (tokenDigest t).2]

theorem blank_eq_false (h : 33 ≤ c.toNat) : blank c = false := by
  have h9 : c ≠ 9 := by rintro rfl; simp at h
  have h32 : c ≠ 32 := by rintro rfl; simp at h
  simp [blank, h9, h32]

theorem lineEnd_eq_false (h : 33 ≤ c.toNat) : lineEnd c = false := by
  have h10 : c ≠ 10 := by rintro rfl; simp at h
  have h13 : c ≠ 13 := by rintro rfl; simp at h
  have hb := blank_eq_false h
  simp only [blank, Bool.or_eq_false_iff, decide_eq_false_iff_not] at hb
  simp [lineEnd, h10, h13, hb]

theorem TokenScope.mem_name {s : TokenScope} (h : c ∈ s.name) : 33 ≤ c.toNat := by
  have hall : ∀ c ∈ s.name, 33 ≤ c.toNat := by cases s <;> simp [name]
  exact hall c h

theorem parseTokenLine_line (ht : t.Filed) (toks : List AuthToken) :
    parseTokenLine toks t.line = some (toks ++ [t.sealed]) := by
  have hsec : ∀ c ∈ hashMark ++ hexEncode (tokenDigest t).1, blank c = false := fun c hc =>
    blank_eq_false ((mem_hashedSecret hc).1.trans' (by omega))
  obtain ⟨secret, ns, scope⟩ := t
  cases ns with
  | none =>
    obtain rfl : scope = .admin := ht.ns_eq_none_iff.1 rfl
    rw [parseTokenLine, line, binding, append_nil, nextField_of_not_blank hsec]
    simp [appendToken, parse_hashedSecret, sealed]
  | some ns =>
    have hfield : ∀ c ∈ ns.bytes, blank c = false := fun c hc => (ht.ns_field ns rfl c hc).1
    have hne : ns.bytes ≠ [] := ht.ns_ne_nil ns rfl
    have hscope : scope ≠ .admin := fun h => by simpa using ht.ns_eq_none_iff.2 h
    have hname : scope.name ≠ [] := by cases scope <;> simp [name]
    have hrest : nextField (ns.bytes ++ 32 :: scope.name) = (ns.bytes, some scope.name) :=
      nextField_append hfield hname fun c hc =>
        blank_eq_false (mem_name (mem_of_mem_head? hc))
    have hhead : ∀ c ∈ (ns.bytes ++ 32 :: scope.name).head?, blank c = false := by
      intro c hc
      rw [head?_append_of_ne_nil _ hne] at hc
      exact hfield c (mem_of_mem_head? hc)
    rw [parseTokenLine, line, binding, nextField_append hsec (by simp) hhead]
    dsimp only
    rw [hrest]
    cases scope with
    | admin => exact absurd rfl hscope
    | ro | rw =>
      simp [appendToken, parse_hashedSecret, sealed, name, ofBytes_bytes]

theorem line_ne_nil (t : AuthToken) : t.line ≠ [] := by
  simp [line, hashMark]

theorem not_mem_line (ht : t.Filed) : (0 : UInt8) ∉ t.line ∧ (10 : UInt8) ∉ t.line := by
  have hsec : ∀ c : UInt8, c.toNat ≤ 10 → c ∉ hashMark ++ hexEncode (tokenDigest t).1 :=
    fun c hc hmem => absurd (mem_hashedSecret hmem).1 (by omega)
  have hscope : ∀ c : UInt8, c.toNat ≤ 10 → c ∉ t.scope.name :=
    fun c hc hmem => absurd (mem_name hmem) (by omega)
  have hns : ∀ ns ∈ t.ns, (0 : UInt8) ∉ ns.bytes ∧ (10 : UInt8) ∉ ns.bytes := fun ns hns =>
    ⟨ns.2, fun h => (ht.ns_field ns hns 10 h).2 rfl⟩
  unfold AuthToken.line binding
  cases h : t.ns with
  | none => exact ⟨by simpa using hsec 0 (by simp), by simpa using hsec 10 (by simp)⟩
  | some ns =>
    have hns := hns ns h
    constructor
    · simpa [hns.1, hscope 0 (by simp)] using hsec 0 (by simp)
    · simpa [hns.2, hscope 10 (by simp)] using hsec 10 (by simp)

theorem lineEnd_getLast_line (t : AuthToken) : lineEnd (t.line.getLast (line_ne_nil t)) = false := by
  have hne : hexEncode (tokenDigest t).1 ≠ [] := by
    rw [Ne, ← length_eq_zero_iff, length_hexEncode, (tokenDigest t).2]
    omega
  obtain ⟨secret, ns, scope⟩ := t
  cases ns with
  | none =>
    simp only [line, binding, append_nil]
    exact lineEnd_eq_false ((mem_hashedSecret (getLast_mem _)).1.trans' (by omega))
  | some ns =>
    have hname : scope.name ≠ [] := by cases scope <;> simp [name]
    have hlast : (line ⟨secret, some ns, scope⟩).getLast (line_ne_nil _) =
        scope.name.getLast hname := by
      have hsplit : line ⟨secret, some ns, scope⟩ =
          (hashMark ++ hexEncode (tokenDigest ⟨secret, some ns, scope⟩).1 ++ 32 :: ns.bytes ++ [32]) ++
            scope.name := by
        simp [line, binding]
      simp only [hsplit, getLast_append_of_ne_nil _ hname]
    rw [hlast]
    exact lineEnd_eq_false (mem_name (getLast_mem _))

/-- A line that was written, with or without its newline, adds the entry. -/
theorem loadLine_line (ht : t.Filed) (toks : List AuthToken) {e : Bytes} (he : e = [] ∨ e = [10]) :
    loadLine toks (t.line ++ e) = some (toks ++ [t.sealed]) := by
  have htrim : trimLine (t.line ++ e) = t.line := by
    refine trimLine_append ?_ (line_ne_nil t) rfl (lineEnd_getLast_line t) ?_
    · obtain rfl | rfl := he <;> simp [(not_mem_line ht).1]
    · obtain rfl | rfl := he <;> simp [lineEnd]
  have hhead : t.line.head? = some 115 := rfl
  rw [loadLine, htrim, if_neg, parseTokenLine_line ht]
  simp [line_ne_nil, hhead]

variable {toks : List AuthToken}

/-- **What is written is read back**, with the digests of the secrets, if every line fits the
buffer. -/
theorem loadTokenFile_configWriteTokenFile (hfiled : ∀ t ∈ toks, t.Filed)
    (hlen : ∀ t ∈ toks, t.line.length ≤ 1023) (acc : List AuthToken) :
    loadTokenFile acc (configWriteTokenFile toks) = some (acc ++ toks.map sealed) := by
  induction toks generalizing acc with
  | nil => simp [configWriteTokenFile, loadTokenFile]
  | cons t toks ih =>
    have ht : t.Filed := hfiled t (by simp)
    have ih := ih (fun u hu => hfiled u (by simp [hu])) (fun u hu => hlen u (by simp [hu]))
      (acc ++ [t.sealed])
    have hsplit : configWriteTokenFile (t :: toks) = t.line ++ 10 :: configWriteTokenFile toks := by
      simp [configWriteTokenFile]
    have hskip : loadLine (acc ++ [t.sealed]) [10] = some (acc ++ [t.sealed]) := rfl
    have hload := loadLine_line ht acc (.inl rfl)
    rw [append_nil] at hload
    rw [append_assoc] at ih
    rw [loadTokenFile] at ih ⊢
    rw [hsplit]
    obtain h | h := fileLines_append (not_mem_line ht).2 (hlen t (by simp))
      (configWriteTokenFile toks) <;> rw [h]
    · rw [foldlM_cons, loadLine_line ht acc (.inr rfl), bind_eq_bind, bind_some]
      exact ih
    · rw [foldlM_cons, hload, bind_eq_bind, bind_some, foldlM_cons, hskip,
        bind_eq_bind, bind_some]
      exact ih

theorem filed_of_field {secret : TokenSecret} {ns : Bytes} {scope : TokenScope} (hne : ns ≠ [])
    (h : ∀ c ∈ ns, blank c = false ∧ c ≠ 10 ∧ c ≠ 0) (hscope : scope ≠ .admin) :
    Filed ⟨secret, some (.ofBytes ns), scope⟩ := by
  have hbytes : (ofBytes ns).bytes = ns := bytes_ofBytes fun h0 => (h 0 h0).2.2 rfl
  refine ⟨by simp [hscope], ?_, ?_⟩ <;> rintro _ ⟨⟩
  · rwa [hbytes]
  · rw [hbytes]
    exact fun c hc => ⟨(h c hc).1, (h c hc).2.1⟩

theorem filed_appendToken {tok : CString} {ns : Option CString}
    {scope : TokenScope} (h : appendToken toks tok ns scope = some toks')
    (htoks : ∀ t ∈ toks, t.Filed) (hnew : ∀ secret, Filed ⟨secret, ns, scope⟩) :
    ∀ t ∈ toks', t.Filed := by
  obtain ⟨secret, -, rfl⟩ := map_eq_some_iff.1 h
  intro t ht
  obtain ht | ht := mem_append.1 ht
  · exact htoks t ht
  · rw [mem_singleton.1 ht]
    exact hnew secret

theorem filed_admin (secret : TokenSecret) : Filed ⟨secret, none, .admin⟩ :=
  ⟨by simp, by simp, by simp⟩

theorem filed_parseTokenLine {s : Bytes}
    (h : parseTokenLine toks s = some toks') (h10 : (10 : UInt8) ∉ s) (h0 : (0 : UInt8) ∉ s)
    (htoks : ∀ t ∈ toks, t.Filed) : ∀ t ∈ toks', t.Filed := by
  -- the second field of the line is the namespace
  have hns : ∀ r, (nextField s).2 = some r → (nextField r).1 ≠ [] ∧
      ∀ c ∈ (nextField r).1, blank c = false ∧ c ≠ 10 ∧ c ≠ 0 := by
    intro r hr
    obtain ⟨hne, hsub⟩ := nextField_rest hr
    refine ⟨hne, fun c hc => ?_⟩
    obtain ⟨hb, hmem⟩ := not_blank_of_mem_nextField hc
    exact ⟨hb, fun h => h10 (h ▸ hsub c hmem), fun h => h0 (h ▸ hsub c hmem)⟩
  unfold parseTokenLine at h
  split at h
  · exact filed_appendToken h htoks filed_admin
  · rename_i tok r hr
    obtain ⟨hne, hfield⟩ := hns r (by rw [hr])
    split at h
    · rename_i ns hns
      rw [hns] at hne hfield
      split at h
      · exact filed_appendToken h htoks filed_admin
      · exact filed_appendToken h htoks fun _ => filed_of_field hne hfield (by decide)
    · rename_i ns scope hns
      rw [hns] at hne hfield
      split_ifs at h
      · exact filed_appendToken h htoks fun _ => filed_of_field hne hfield (by decide)
      · exact filed_appendToken h htoks fun _ => filed_of_field hne hfield (by decide)
      · exact filed_appendToken h htoks filed_admin

theorem filed_loadTokenFile {file : Bytes}
    (h : loadTokenFile toks file = some toks') (htoks : ∀ t ∈ toks, t.Filed) :
    ∀ t ∈ toks', t.Filed := by
  have key : ∀ ls : List Bytes, (∀ l ∈ ls, (10 : UInt8) ∉ l.dropLast) → ∀ toks : List AuthToken,
      (∀ t ∈ toks, t.Filed) → ls.foldlM loadLine toks = some toks' → ∀ t ∈ toks', t.Filed := by
    intro ls
    induction ls with
    | nil =>
      rintro - toks htoks h
      cases h
      exact htoks
    | cons l ls ih =>
      intro hls toks htoks h
      rw [foldlM_cons, bind_eq_bind, bind_eq_some_iff] at h
      obtain ⟨mid, hmid, h⟩ := h
      refine ih (fun x hx => hls x (by simp [hx])) mid ?_ h
      rw [loadLine] at hmid
      split at hmid
      · cases hmid
        exact htoks
      · refine filed_parseTokenLine hmid (not_mem_trimLine (hls l (by simp))) ?_ htoks
        intro h0
        exact (ofBytes l).2 ((dropWhile_sublist _).subset
          ((List.rdropWhile_prefix _ _).subset h0))
  exact key _ (fun l hl => not_mem_dropLast_fileLines hl) toks htoks h

end AegisDB
