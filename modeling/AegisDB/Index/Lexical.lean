import AegisDB.Index.Tags
import Mathlib.Algebra.BigOperators.Group.List.Basic
import Mathlib.Data.List.DropRight

/-!
# The lexical index

`lexical_index.c`: the records by the terms of their payload, with the number of times each term
occurs and the number of terms of each record, by which a search weighs its hits. `lexTokens` is the
tokenizer: maximal runs of term characters, trimmed, cut to `lexMaxTerm` bytes and in lower case,
each followed by its parts when it is a compound. The trimming comes before the cut, which can leave
an edge character at the end of a term (`terms_canonical_iff`).

`LexExact texts lx` says that the index is the one of the given payloads. It determines every field
(`LexExact.unique`), the counters included, and it is kept when a payload comes or goes.
-/

namespace AegisDB

open List Function KeyedArray

/-! ## The tokenizer -/

def lexMaxTerm : ℕ := 64

def isEdgeChar (c : UInt8) : Bool :=
  c = 0x2d || c = 0x2e || c = 0x3a || c = 0x2f || c = 0x2b || c = 0x23

def isSubDelim (c : UInt8) : Bool := c = 0x5f || isEdgeChar c

def isTermChar (c : UInt8) : Bool :=
  0x80 ≤ c || (0x61 ≤ c && c ≤ 0x7a) || (0x41 ≤ c && c ≤ 0x5a) || (0x30 ≤ c && c ≤ 0x39) ||
    isSubDelim c

def lowerByte (c : UInt8) : UInt8 := if 0x41 ≤ c && c ≤ 0x5a then c + 0x20 else c

/-- A run of term characters without the edge characters at its ends. -/
def trimEdges (run : Bytes) : Bytes :=
  (((run.dropWhile isEdgeChar).reverse).dropWhile isEdgeChar).reverse

/-- The terms of a run: the run, and the parts of a compound that are longer than one character and
not all of it. -/
def runTerms (run : Bytes) : List Bytes :=
  let raw := (trimEdges run).take lexMaxTerm
  let full := raw.map lowerByte
  if raw = [] then []
  else full :: if raw.any isSubDelim then
      (full.splitOnP isSubDelim).filter fun part => 2 ≤ part.length ∧ part.length < full.length
    else []

/-- The terms that `lex_tokenizer_next` returns one after the other. -/
def lexTokens (text : Bytes) : List Bytes :=
  (text.splitOnP fun c => !isTermChar c).flatMap runTerms

/-! ## The terms of a text -/

/-- A term as the index should hold it: in lower case, no edge character at its ends, and the first
term of its own text. -/
structure CanonicalTerm (w : Bytes) : Prop where
  ne_nil : w ≠ []
  length_le : w.length ≤ lexMaxTerm
  lower : ∀ c ∈ w, ¬ (0x41 ≤ c ∧ c ≤ 0x5a)
  head : ∀ c ∈ w.head?, isEdgeChar c = false
  last : ∀ c ∈ w.getLast?, isEdgeChar c = false
  first : (lexTokens w).head? = some w

theorem flatten_splitOnP {α : Type*} (p : α → Bool) (l : List α) :
    (l.splitOnP p).flatten = l.filter (!p ·) := by
  induction l with
  | nil => rfl
  | cons x l ih =>
    obtain ⟨w, ws, hws⟩ := exists_cons_of_ne_nil (splitOnP_ne_nil p l)
    rw [splitOnP_cons_eq_if_modifyHead, hws]
    rw [hws] at ih
    split <;> simp_all

/-- A part of a split list is made of members that do not split it. -/
theorem of_mem_splitOnP {α : Type*} {p : α → Bool} {l w : List α} (hw : w ∈ l.splitOnP p) {c : α}
    (hc : c ∈ w) : c ∈ l ∧ p c = false := by
  have hmem := mem_flatten_of_mem hw hc
  rw [flatten_splitOnP] at hmem
  simpa using hmem

theorem lowerByte_not_upper (c : UInt8) : ¬ (0x41 ≤ lowerByte c ∧ lowerByte c ≤ 0x5a) := by
  grind [lowerByte]

theorem isEdgeChar_lowerByte (c : UInt8) : isEdgeChar (lowerByte c) = isEdgeChar c := by
  grind [lowerByte, isEdgeChar]

theorem isTermChar_lowerByte {c : UInt8} (h : isTermChar c) : isTermChar (lowerByte c) := by
  grind [lowerByte, isTermChar]

theorem canonicalTerm_of {w : Bytes} (hne : w ≠ []) (hlen : w.length ≤ lexMaxTerm)
    (hchars : ∀ c ∈ w, isTermChar c ∧ ¬ (0x41 ≤ c ∧ c ≤ 0x5a))
    (hhead : ∀ c ∈ w.head?, isEdgeChar c = false) (hlast : ∀ c ∈ w.getLast?, isEdgeChar c = false) :
    CanonicalTerm w := by
  refine ⟨hne, hlen, fun c hc => (hchars c hc).2, hhead, hlast, ?_⟩
  have htrim : trimEdges w = w := by
    have hdrop : w.dropWhile isEdgeChar = w := by
      cases w with
      | nil => rfl
      | cons c w => simp [hhead c rfl]
    change (w.dropWhile isEdgeChar).rdropWhile isEdgeChar = w
    rw [hdrop, rdropWhile_eq_self_iff]
    intro h
    simp [hlast _ (getLast?_eq_some_getLast h)]
  have hmap : w.map lowerByte = w.map id := map_congr_left fun c hc => by
    grind [lowerByte, hchars c hc]
  have hsplit : w.splitOnP (fun c => !isTermChar c) = [w] :=
    splitOnP_eq_singleton fun c hc => by simp [hchars c hc]
  simp [lexTokens, hsplit, runTerms, htrim, take_of_length_le hlen, hmap, hne]

/-- The terms of a run that is not cut behind an edge character. -/
theorem canonicalTerm_of_mem_runTerms {run w : Bytes} (hrun : ∀ c ∈ run, isTermChar c)
    (hlast : ∀ c ∈ ((trimEdges run).take lexMaxTerm).getLast?, isEdgeChar c = false)
    (hw : w ∈ runTerms run) : CanonicalTerm w := by
  have hle := length_take_le lexMaxTerm (trimEdges run)
  obtain ⟨rest, hrest⟩ := (List.take_prefix lexMaxTerm (trimEdges run)).trans
    (List.rdropWhile_prefix isEdgeChar (run.dropWhile isEdgeChar))
  unfold runTerms at hw
  generalize (trimEdges run).take lexMaxTerm = raw at hlast hle hrest hw
  have hchars : ∀ c ∈ raw.map lowerByte, isTermChar c ∧ ¬ (0x41 ≤ c ∧ c ≤ 0x5a) := by
    rw [forall_mem_map]
    intro c hc
    have hmem : c ∈ run.dropWhile isEdgeChar := hrest ▸ mem_append_left _ hc
    exact ⟨isTermChar_lowerByte (hrun c ((dropWhile_sublist _).subset hmem)), lowerByte_not_upper c⟩
  dsimp only at hw
  split at hw
  · cases hw
  rename_i hne
  rcases mem_cons.1 hw with rfl | hw
  · -- the whole run
    refine canonicalTerm_of (by simpa using hne) (by simpa using hle) hchars ?_ ?_
    · obtain ⟨a, raw, rfl⟩ := exists_cons_of_ne_nil hne
      have hhead := head?_dropWhile_not isEdgeChar run
      simp_all [← hrest, isEdgeChar_lowerByte]
    · cases hl : raw.getLast? <;> simp_all [isEdgeChar_lowerByte]
  split at hw
  · -- a part of it, which has no edge character at all
    simp only [mem_filter, decide_eq_true_eq, length_map] at hw
    obtain ⟨hpart, htwo, hshort⟩ := hw
    have hedge : ∀ c ∈ w, isEdgeChar c = false := by
      intro c hc
      have := (of_mem_splitOnP hpart hc).2
      simp_all [isSubDelim]
    refine canonicalTerm_of ?_ (by omega) (fun c hc => hchars c (of_mem_splitOnP hpart hc).1)
      (fun c hc => hedge c (mem_of_mem_head? hc)) fun c hc => hedge c (mem_of_mem_getLast? hc)
    rintro rfl
    cases htwo
  · cases hw

/-- **The terms of a text** are canonical exactly when none of its runs is cut right behind an edge
character. -/
theorem terms_canonical_iff (text : Bytes) :
    (∀ w ∈ lexTokens text, CanonicalTerm w) ↔
      ∀ run ∈ text.splitOnP (fun c => !isTermChar c),
        ∀ c ∈ ((trimEdges run).take lexMaxTerm).getLast?, isEdgeChar c = false := by
  simp only [lexTokens, mem_flatMap]
  constructor
  · intro h run hrun c hc
    have hraw : (trimEdges run).take lexMaxTerm ≠ [] := by
      rintro heq
      simp [heq] at hc
    have hfull := h (((trimEdges run).take lexMaxTerm).map lowerByte) ⟨run, hrun, by
      simp [runTerms, hraw]⟩
    rw [← isEdgeChar_lowerByte]
    exact hfull.last _ (by rw [getLast?_map, hc]; rfl)
  · rintro h w ⟨run, hrun, hw⟩
    refine canonicalTerm_of_mem_runTerms (fun c hc => ?_) (h run hrun) hw
    simpa using (of_mem_splitOnP hrun hc).2

/-- A name whose 64th character is a dot. -/
theorem cut_term_not_canonical :
    replicate 63 0x61 ++ [0x2e] ∈ lexTokens (replicate 63 0x61 ++ [0x2e, 0x62]) ∧
      (lexTokens (replicate 63 0x61 ++ [0x2e])).head? = some (replicate 63 0x61) ∧
      ¬ CanonicalTerm (replicate 63 0x61 ++ [0x2e]) := by
  refine ⟨by decide +kernel, by decide +kernel, fun h => ?_⟩
  cases h.last 0x2e rfl

/-! ## The index -/

structure LexPost where
  id : UInt64
  tf : ℕ
  deriving DecidableEq

/-- What `post_lower_bound` compares by. -/
def LexPost.key (p : LexPost) : ℕ := p.id.toNat

structure LexDoc where
  id : UInt64
  len : ℕ
  deriving DecidableEq

def LexDoc.key (d : LexDoc) : ℕ := d.id.toNat

/-- `LexicalIndex`, without the number of its terms. -/
structure LexicalIndex where
  terms : Postings Bytes LexPost.key
  docs : KeyedArray LexDoc.key
  docLive : ℕ
  totalLen : ℕ

def lexicalIndexCreate : LexicalIndex := ⟨.empty, .empty, 0, 0⟩

/-- `UINT32_MAX`, where the counts stop. -/
def lexCountMax : ℕ := 0xFFFFFFFF

def termAdd (t : Postings Bytes LexPost.key) (term : Bytes) (id : UInt64) :
    Postings Bytes LexPost.key :=
  match (t.slot term).at? id.toNat with
  | some p => t.add term ⟨id, if p.tf < lexCountMax then p.tf + 1 else p.tf⟩
  | none => t.add term ⟨id, 1⟩

def termRemove (t : Postings Bytes LexPost.key) (term : Bytes) (id : UInt64) :
    Postings Bytes LexPost.key := t.remove term id.toNat

/-- The number of terms of a text, as it is counted. -/
def textLen (text : Bytes) : ℕ := min (lexTokens text).length lexCountMax

def lexicalIndexAdd (lx : LexicalIndex) (id : UInt64) (text : Bytes) : LexicalIndex :=
  if (lx.docs.at? id.toNat).isSome then lx
  else
    let terms := (lexTokens text).foldl (fun t w => termAdd t w id) lx.terms
    if textLen text = 0 then { lx with terms }
    else
      { terms
        docs := lx.docs.put ⟨id, textLen text⟩
        docLive := lx.docLive + 1
        totalLen := lx.totalLen + textLen text }

def lexicalIndexRemove (lx : LexicalIndex) (id : UInt64) (text : Bytes) : LexicalIndex :=
  match lx.docs.at? id.toNat with
  | none => lx
  | some d =>
    { terms := (lexTokens text).foldl (fun t w => termRemove t w id) lx.terms
      docs := lx.docs.erase id.toNat
      docLive := lx.docLive - 1
      totalLen := lx.totalLen - d.len }

/-! ## What the index lists -/

/-- The number of times a term occurs in a text, as it is counted. -/
def termCount (text : Bytes) (w : Bytes) : ℕ := min ((lexTokens text).count w) lexCountMax

/-- The index is the one of the given texts. -/
structure LexExact (texts : UInt64 → Option Bytes) (lx : LexicalIndex) : Prop where
  terms : ∀ w p, lx.terms.Holds w p ↔ ∃ text, texts p.id = some text ∧ termCount text w = p.tf ∧
    p.tf ≠ 0
  docs : ∀ d, d ∈ lx.docs.items ↔ ∃ text, texts d.id = some text ∧ textLen text = d.len ∧ d.len ≠ 0
  docLive : lx.docLive = lx.docs.items.length
  totalLen : lx.totalLen = (lx.docs.items.map LexDoc.len).sum

theorem lexExact_create : LexExact (fun _ => none) lexicalIndexCreate := by
  constructor <;> simp [lexicalIndexCreate, KeyedArray.empty]

theorem LexExact.unique {texts : UInt64 → Option Bytes} {lx lx' : LexicalIndex}
    (h : LexExact texts lx) (h' : LexExact texts lx') : lx = lx' := by
  have hterms : lx.terms = lx'.terms := Postings.ext_holds fun w p => by rw [h.terms, h'.terms]
  have hdocs : lx.docs = lx'.docs := ext_mem fun d => by rw [h.docs, h'.docs]
  have hlive := h.docLive
  have htotal := h.totalLen
  rw [hdocs, ← h'.docLive] at hlive
  rw [hdocs, ← h'.totalLen] at htotal
  cases lx
  cases lx'
  simp_all

section

variable {texts : UInt64 → Option Bytes} {lx : LexicalIndex} {id : UInt64} {text : Bytes}

/-- The postings of one record are those of the terms it was given so far. -/
def Counted (t : Postings Bytes LexPost.key) (id : UInt64) (given : List Bytes) : Prop :=
  ∀ w tf, t.Holds w ⟨id, tf⟩ ↔ min (given.count w) lexCountMax = tf ∧ tf ≠ 0

variable {t : Postings Bytes LexPost.key}

theorem holds_termAdd_of_ne {w w' : Bytes} {p : LexPost} (h : p.id ≠ id) :
    (termAdd t w id).Holds w' p ↔ t.Holds w' p := by
  have hkey : p.key ≠ id.toNat := fun hp => h (uint64_toNat_injective hp)
  have hadd (tf : ℕ) : (t.add w ⟨id, tf⟩).Holds w' p ↔ t.Holds w' p := by
    rw [Postings.holds_add']
    constructor
    · rintro (⟨-, rfl⟩ | ⟨h', -⟩)
      · exact absurd rfl h
      · exact h'
    · exact fun h' => .inr ⟨h', fun hp => hkey hp.2⟩
  unfold termAdd
  split <;> exact hadd _

theorem Counted.termAdd {given : List Bytes} (h : Counted t id given) (w : Bytes) :
    Counted (termAdd t w id) id (given ++ [w]) := by
  -- the posting of `w` counts one more, those of the other terms stay
  have hadd (tf : ℕ) (htf : tf = min (given.count w + 1) lexCountMax) :
      Counted (t.add w ⟨id, tf⟩) id (given ++ [w]) := by
    intro w' tf'
    rw [Postings.holds_add', count_append, count_singleton]
    by_cases hw : w' = w
    · subst hw
      simp only [true_and, LexPost.mk.injEq, LexPost.key, and_self, not_true_eq_false, and_false,
        or_false, beq_self_eq_true, if_true, htf]
      constructor
      · rintro rfl
        exact ⟨rfl, by simp [lexCountMax]⟩
      · exact fun h => h.1.symm
    · simp [hw, Ne.symm hw, h w' tf']
  unfold AegisDB.termAdd
  cases hp : (t.slot w).at? id.toNat with
  | some p =>
    obtain ⟨hmem, hkey⟩ := at?_eq_some.1 hp
    obtain ⟨id', tf⟩ := p
    obtain rfl : id' = id := uint64_toNat_injective hkey
    have htf := ((h w tf).1 hmem).1
    refine hadd _ ?_
    simp only
    split <;> omega
  | none =>
    have hzero : given.count w = 0 := by
      by_contra hne
      have hmin : min (given.count w) lexCountMax ≠ 0 := by
        simp only [lexCountMax]
        omega
      have hmem := (h w _).2 ⟨rfl, hmin⟩
      have := at?_eq_some.2 ⟨hmem, rfl⟩
      cases hp.symm.trans this
    exact hadd 1 (by rw [hzero]; rfl)

theorem Counted.foldl {given : List Bytes} (h : Counted t id given) (ws : List Bytes) :
    Counted (ws.foldl (fun t w => AegisDB.termAdd t w id) t) id (given ++ ws) := by
  induction ws generalizing t given with
  | nil => simpa using h
  | cons w ws ih => simpa using ih (h.termAdd w)

theorem holds_foldl_termAdd_of_ne {ws : List Bytes} {w : Bytes} {p : LexPost} (h : p.id ≠ id) :
    (ws.foldl (fun t w => termAdd t w id) t).Holds w p ↔ t.Holds w p := by
  induction ws generalizing t with
  | nil => rfl
  | cons w' ws ih => rw [foldl_cons, ih, holds_termAdd_of_ne h]

section

variable (h : LexExact texts lx)

include h

theorem LexExact.not_holds (hid : texts id = none) (w : Bytes) (tf : ℕ) :
    ¬ lx.terms.Holds w ⟨id, tf⟩ := by
  intro hw
  obtain ⟨text, htext, -⟩ := (h.terms w _).1 hw
  cases hid.symm.trans htext

theorem LexExact.at?_eq_none (hid : ∀ text, texts id = some text → textLen text = 0) :
    lx.docs.at? id.toNat = none := by
  by_contra hne
  obtain ⟨d, hd⟩ := Option.ne_none_iff_exists'.1 hne
  obtain ⟨hmem, hkey⟩ := at?_eq_some.1 hd
  obtain ⟨text, htext, hlen, hne⟩ := (h.docs d).1 hmem
  rw [uint64_toNat_injective hkey] at htext
  exact hne (hlen ▸ hid text htext)

theorem LexExact.holds_add (hid : texts id = none) (w : Bytes) (p : LexPost) :
    ((lexTokens text).foldl (fun t w => termAdd t w id) lx.terms).Holds w p ↔
      ∃ text', update texts id (some text) p.id = some text' ∧ termCount text' w = p.tf ∧
        p.tf ≠ 0 := by
  by_cases hp : p.id = id
  · have hnil : Counted lx.terms id [] := by
      intro w tf
      simp only [h.not_holds hid, count_nil, Nat.zero_min, ne_eq, false_iff, not_and, not_not]
      exact Eq.symm
    obtain ⟨id', tf⟩ := p
    obtain rfl : id' = id := hp
    have hcounted := hnil.foldl (lexTokens text) w tf
    rw [nil_append] at hcounted
    rw [hcounted]
    simp [termCount]
  · rw [holds_foldl_termAdd_of_ne hp, h.terms, update_of_ne hp]

theorem LexExact.holds_remove (hid : texts id = some text) (w : Bytes) (p : LexPost) :
    ((lexTokens text).foldl (fun t w => termRemove t w id) lx.terms).Holds w p ↔
      ∃ text', update texts id none p.id = some text' ∧ termCount text' w = p.tf ∧ p.tf ≠ 0 := by
  rw [show (fun t w => termRemove t w id) = fun (t : Postings Bytes LexPost.key) w =>
    t.remove w id.toNat from rfl, Postings.holds_foldl_remove, h.terms]
  by_cases hp : p.id = id
  · -- every term the record is filed under is one of its text
    subst hp
    simp only [hid, Option.some.injEq, exists_eq_left', LexPost.key, and_true, update_self,
      reduceCtorEq, false_and, exists_false, iff_false, not_and, not_not, and_imp]
    intro hcount hne
    refine count_pos_iff.1 (Nat.pos_of_ne_zero fun hzero => hne ?_)
    rw [← hcount, termCount, hzero, Nat.zero_min]
  · have hkey : p.key ≠ id.toNat := fun hk => hp (uint64_toNat_injective hk)
    simp [hkey, update_of_ne hp]

theorem LexExact.add (hid : texts id = none) (text : Bytes) :
    LexExact (update texts id (some text)) (lexicalIndexAdd lx id text) := by
  have hnone := h.at?_eq_none fun text ht => by
    cases hid.symm.trans ht
  have hold (d : LexDoc) (hd : d ∈ lx.docs.items) : d.id ≠ id := by
    rintro rfl
    obtain ⟨text, ht, -⟩ := (h.docs d).1 hd
    cases hid.symm.trans ht
  unfold lexicalIndexAdd
  simp only [hnone, Option.isSome_none, Bool.false_eq_true, if_false]
  split
  · rename_i hlen
    refine ⟨h.holds_add hid, fun d => ?_, h.docLive, h.totalLen⟩
    by_cases hd : d.id = id
    · have hnot : d ∉ lx.docs.items := fun hmem => hold d hmem hd
      simp only [hnot, hd, update_self, Option.some.injEq, exists_eq_left', hlen, false_iff,
        not_and, not_not]
      exact Eq.symm
    · rw [h.docs, update_of_ne hd]
  · rename_i hlen
    have hperm := perm_put (t := lx.docs) (a := ⟨id, textLen text⟩) hnone
    refine ⟨h.holds_add hid, fun d => ?_, ?_, ?_⟩
    · rw [hperm.mem_iff, mem_cons]
      by_cases hd : d.id = id
      · have hnot : d ∉ lx.docs.items := fun hmem => hold d hmem hd
        obtain ⟨id', len⟩ := d
        obtain rfl : id' = id := hd
        simp only [LexDoc.mk.injEq, true_and, hnot, or_false, update_self,
          Option.some.injEq, exists_eq_left']
        constructor
        · rintro rfl
          exact ⟨rfl, hlen⟩
        · exact fun h => h.1.symm
      · have hne : d ≠ ⟨id, textLen text⟩ := fun he => hd (congrArg LexDoc.id he)
        simp only [hne, false_or, update_of_ne hd]
        exact h.docs d
    · change lx.docLive + 1 = _
      rw [hperm.length_eq, h.docLive, length_cons]
    · change lx.totalLen + textLen text = _
      rw [(hperm.map LexDoc.len).sum_eq, h.totalLen, map_cons, sum_cons, add_comm]

theorem LexExact.remove (hid : texts id = some text) :
    LexExact (update texts id none) (lexicalIndexRemove lx id text) := by
  unfold lexicalIndexRemove
  cases hd : lx.docs.at? id.toNat with
  | none =>
    -- a text without terms is in no posting
    have hlen : textLen text = 0 := by
      by_contra hne
      have hmem := (h.docs ⟨id, textLen text⟩).2 ⟨text, hid, rfl, hne⟩
      cases hd.symm.trans (at?_eq_some.2 ⟨hmem, rfl⟩)
    have htokens : lexTokens text = [] := by
      rw [← length_eq_zero_iff]
      simp only [textLen, lexCountMax] at hlen
      omega
    refine ⟨fun w p => ?_, fun d => ?_, h.docLive, h.totalLen⟩
    · have := h.holds_remove hid w p
      rwa [htokens, foldl_nil] at this
    · rw [h.docs]
      by_cases hdid : d.id = id
      · simp only [hdid, hid, Option.some.injEq, exists_eq_left', hlen, update_self,
          reduceCtorEq, false_and, exists_false, iff_false, not_and, not_not]
        exact Eq.symm
      · rw [update_of_ne hdid]
  | some d =>
    obtain ⟨hmem, hkey⟩ := at?_eq_some.1 hd
    have hperm := perm_erase hd
    refine ⟨h.holds_remove hid, fun d' => ?_, ?_, ?_⟩
    · simp only [mem_erase, h.docs]
      by_cases hd' : d'.id = id
      · simp [hd', LexDoc.key]
      · have hne : d'.key ≠ id.toNat := fun hk => hd' (uint64_toNat_injective hk)
        simp [hne, update_of_ne hd']
    · change lx.docLive - 1 = _
      rw [h.docLive, hperm.length_eq, length_cons, Nat.add_sub_cancel]
    · change lx.totalLen - d.len = _
      rw [h.totalLen, (hperm.map LexDoc.len).sum_eq, map_cons, sum_cons, Nat.add_sub_cancel_left]

end

end

end AegisDB
