import AegisDB.Foundations.Postings
import AegisDB.Memory.Record

/-!
# The tag index

`tag_index.c`: the ids of the records under each tag. The chained table of nodes is a posting table
here; a node whose last id is removed is reclaimed by the source, which is to say that an absent
node and an empty one are the same. The chains themselves are at the end: the posting table is what
they are (`chainsIndex`), and behind any calls no node is empty (`tagIndexQuery_exact`).

A lookup takes the ids under all of several tags or under any of them; `mem_tagIndexQuery` says so of
the loops over the nodes. `TagsExact tags t` says that the index lists every record under its tags.
-/

namespace AegisDB

open List Function KeyedArray Postings

theorem uint64_toNat_injective : Injective UInt64.toNat := fun _ _ => UInt64.toNat_inj.1

abbrev IdArray := KeyedArray UInt64.toNat

abbrev TagIndex := Postings CString UInt64.toNat

def tagIndexAdd (t : TagIndex) (tag : CString) (id : UInt64) : TagIndex := t.add tag id

def tagIndexRemove (t : TagIndex) (tag : CString) (id : UInt64) : TagIndex := t.remove tag id.toNat

def inNode (t : TagIndex) (tag : CString) (id : UInt64) : Bool := ((t.slot tag).at? id.toNat).isSome

/-- The union of the nodes of several tags. -/
def tagUnion (t : TagIndex) (tags : List CString) : IdArray :=
  tags.foldl (fun acc tag => (t.under tag).foldl (fun acc id => acc.put id) acc) .empty

def tagIndexQuery (t : TagIndex) (tags : List CString) (matchAll : Bool) : List UInt64 :=
  match tags with
  | [] => []
  | tag :: rest =>
    if matchAll then (t.under tag).filter fun id => rest.all fun tag' => inNode t tag' id
    else (tagUnion t (tag :: rest)).items

theorem inNode_iff {t : TagIndex} {tag : CString} {id : UInt64} :
    inNode t tag id = true ↔ t.Holds tag id := by
  rw [inNode, Option.isSome_iff_exists]
  constructor
  · rintro ⟨a, ha⟩
    obtain ⟨hmem, hkey⟩ := at?_eq_some.1 ha
    rwa [uint64_toNat_injective hkey] at hmem
  · intro h
    exact ⟨id, at?_eq_some.2 ⟨h, rfl⟩⟩

theorem mem_put_id {ids : IdArray} {id id' : UInt64} :
    id' ∈ (ids.put id).items ↔ id' = id ∨ id' ∈ ids.items := by
  rw [KeyedArray.mem_put, uint64_toNat_injective.ne_iff]
  by_cases h : id' = id <;> simp [h]

theorem mem_foldl_put {ids : List UInt64} {acc : IdArray} {id : UInt64} :
    id ∈ (ids.foldl (fun acc id => acc.put id) acc).items ↔ id ∈ ids ∨ id ∈ acc.items := by
  induction ids generalizing acc with
  | nil => simp
  | cons x ids ih =>
    rw [foldl_cons, ih, mem_put_id, mem_cons, or_left_comm, or_assoc]

theorem mem_tagUnion {t : TagIndex} {tags : List CString} {id : UInt64} :
    id ∈ (tagUnion t tags).items ↔ ∃ tag ∈ tags, t.Holds tag id := by
  have hacc (acc : IdArray) : id ∈ (tags.foldl (fun acc tag =>
      (t.under tag).foldl (fun acc id => acc.put id) acc) acc).items ↔
      (∃ tag ∈ tags, t.Holds tag id) ∨ id ∈ acc.items := by
    induction tags generalizing acc with
    | nil => simp
    | cons tag tags ih =>
      rw [foldl_cons, ih, mem_foldl_put, exists_mem_cons_iff, Holds,
        ← or_assoc, or_comm (a := id ∈ t.under tag)]
  rw [tagUnion, hacc]
  simp [KeyedArray.empty]

/-- A lookup finds the ids under all of the tags, or under any of them. -/
theorem mem_tagIndexQuery {t : TagIndex} {tags : List CString} (hne : tags ≠ []) {matchAll : Bool}
    {id : UInt64} : id ∈ tagIndexQuery t tags matchAll ↔
      if matchAll then ∀ tag ∈ tags, t.Holds tag id else ∃ tag ∈ tags, t.Holds tag id := by
  cases tags with
  | nil => exact absurd rfl hne
  | cons tag rest =>
    cases matchAll with
    | true =>
      simp [tagIndexQuery, inNode_iff, Holds]
    | false => exact mem_tagUnion

theorem pairwise_tagIndexQuery (t : TagIndex) (tags : List CString) (matchAll : Bool) :
    (tagIndexQuery t tags matchAll).Pairwise (· < ·) := by
  have hsorted (ids : IdArray) : ids.items.Pairwise (· < ·) :=
    ids.sorted.imp UInt64.lt_iff_toNat_lt.2
  unfold tagIndexQuery
  split
  · exact .nil
  · split
    · exact (hsorted _).filter _
    · exact hsorted _

/-! ## What the index lists -/

/-- The index lists the records under their tags. -/
def TagsExact (tags : UInt64 → List CString) (t : TagIndex) : Prop :=
  ∀ tag id, t.Holds tag id ↔ tag ∈ tags id

theorem tagsExact_empty : TagsExact (fun _ => []) (empty : TagIndex) := by
  simp [TagsExact]

section

variable {tags : UInt64 → List CString} {t t' : TagIndex} {id : UInt64}

theorem TagsExact.unique (h : TagsExact tags t) (h' : TagsExact tags t') : t = t' :=
  ext_holds fun tag id => by rw [h, h']

theorem TagsExact.add (h : TagsExact tags t) (hid : tags id = []) (ts : List CString) :
    TagsExact (update tags id ts) (ts.foldl (fun t tag => tagIndexAdd t tag id) t) := by
  intro tag id'
  simp only [tagIndexAdd]
  rw [holds_foldl_add uint64_toNat_injective, h]
  by_cases hid' : id' = id
  · subst hid'
    simp [hid]
  · simp [hid']

theorem TagsExact.remove (h : TagsExact tags t) (id : UInt64) :
    TagsExact (update tags id [])
      ((tags id).foldl (fun t tag => tagIndexRemove t tag id) t) := by
  intro tag id'
  simp only [tagIndexRemove]
  rw [holds_foldl_remove, h, UInt64.toNat_inj]
  by_cases hid' : id' = id
  · subst hid'
    simp
  · simp [hid']

end

/-! ## The chains of nodes -/

structure TagNode where
  tag : CString
  ids : IdArray

/-- `hash_str`. -/
def hashStr (s : CString) : ℕ :=
  (s.bytes.foldl (fun h b => (h ^^^ b.toUInt64) * 1099511628211)
    (1469598103934665603 : UInt64)).toNat % 1024

/-- The chain of each bucket. -/
abbrev TagChains := ℕ → List TagNode

def findNode (c : TagChains) (tag : CString) : Option TagNode :=
  (c (hashStr tag)).find? fun n => n.tag = tag

def addToChain (tag : CString) (id : UInt64) (chain : List TagNode) : List TagNode :=
  if tag ∈ chain.map TagNode.tag then
    chain.map fun n => if n.tag = tag then { n with ids := n.ids.put id } else n
  else ⟨tag, KeyedArray.empty.put id⟩ :: chain

/-- The node of the tag without the id; it leaves the chain with its last id. -/
def removeFromChain (tag : CString) (id : UInt64) : List TagNode → List TagNode
  | [] => []
  | n :: chain =>
    if n.tag = tag then
      if (n.ids.erase id.toNat).items = [] then chain
      else { n with ids := n.ids.erase id.toNat } :: chain
    else n :: removeFromChain tag id chain

inductive TagCall
  | add (tag : CString) (id : UInt64)
  | remove (tag : CString) (id : UInt64)

def TagCall.tag : TagCall → CString
  | .add tag _ => tag
  | .remove tag _ => tag

def TagCall.onChain : TagCall → List TagNode → List TagNode
  | .add tag id => addToChain tag id
  | .remove tag id => removeFromChain tag id

/-- A call changes the chain of the bucket of its tag. -/
def tagStep (c : TagChains) (call : TagCall) : TagChains :=
  update c (hashStr call.tag) (call.onChain (c (hashStr call.tag)))

/-- The pairs of a tag and an id behind a call. -/
def tagPairs (s : Set (CString × UInt64)) : TagCall → Set (CString × UInt64)
  | .add tag id => insert (tag, id) s
  | .remove tag id => s \ {(tag, id)}

/-- The index that the chains are: an absent node contributes no ids. -/
def chainsIndex (c : TagChains) : TagIndex := ⟨fun tag => (findNode c tag).elim .empty TagNode.ids⟩

/-- Every tag has one node, in its own bucket, and no node is empty. -/
structure Tidy (b : ℕ) (chain : List TagNode) : Prop where
  nodup : (chain.map TagNode.tag).Nodup
  home : ∀ n ∈ chain, hashStr n.tag = b ∧ n.ids.items ≠ []

def InChain (chain : List TagNode) (tag : CString) (id : UInt64) : Prop :=
  ∃ n ∈ chain, n.tag = tag ∧ id ∈ n.ids.items

section

variable {c : TagChains} {tag tag' : CString} {id id' : UInt64} {chain : List TagNode} {b : ℕ}

theorem inChain_addToChain :
    InChain (addToChain tag id chain) tag' id' ↔ tag' = tag ∧ id' = id ∨ InChain chain tag' id' := by
  unfold addToChain InChain
  split
  · rename_i hmem
    simp only [mem_map, exists_exists_and_eq_and]
    constructor
    · rintro ⟨n, hn, htag, hid⟩
      split at htag <;> rename_i hn'
      · rw [if_pos hn', mem_put_id] at hid
        exact hid.imp (fun h => ⟨htag.symm.trans hn', h⟩) fun h => ⟨n, hn, htag, h⟩
      · rw [if_neg hn'] at hid
        exact .inr ⟨n, hn, htag, hid⟩
    · rintro (⟨rfl, rfl⟩ | ⟨n, hn, htag, hid⟩)
      · obtain ⟨n, hn, hn'⟩ := mem_map.1 hmem
        exact ⟨n, hn, by simp [hn'], by simp [hn', mem_put_id]⟩
      · exact ⟨n, hn, by split <;> exact htag, by split <;> simp [mem_put_id, hid]⟩
  · simp only [exists_mem_cons_iff, mem_put_id]
    simp [KeyedArray.empty, eq_comm]

theorem inChain_removeFromChain (h : (chain.map TagNode.tag).Nodup) :
    InChain (removeFromChain tag id chain) tag' id' ↔
      InChain chain tag' id' ∧ ¬ (tag' = tag ∧ id' = id) := by
  unfold InChain
  induction chain with
  | nil => simp [removeFromChain]
  | cons n chain ih =>
    obtain ⟨hn, hrest⟩ := nodup_cons.1 h
    unfold removeFromChain
    split
    · rename_i hn'
      subst hn'
      have hrest' : (∃ m ∈ chain, m.tag = tag' ∧ id' ∈ m.ids.items) → tag' ≠ n.tag := by
        rintro ⟨m, hm, hm', -⟩ rfl
        exact hn (mem_map.2 ⟨m, hm, hm'⟩)
      have hnode : (∃ m ∈ if (n.ids.erase id.toNat).items = [] then chain
          else { n with ids := n.ids.erase id.toNat } :: chain, m.tag = tag' ∧ id' ∈ m.ids.items) ↔
          n.tag = tag' ∧ id' ∈ (n.ids.erase id.toNat).items ∨
            ∃ m ∈ chain, m.tag = tag' ∧ id' ∈ m.ids.items := by
        split <;> simp [*]
      rw [hnode, exists_mem_cons_iff, mem_erase, uint64_toNat_injective.ne_iff]
      grind
    · rename_i hn'
      rw [exists_mem_cons_iff, ih hrest, exists_mem_cons_iff, or_and_right]
      refine or_congr_left ⟨fun h => ⟨h, fun h' => hn' (h.1.trans h'.1)⟩, And.left⟩

theorem Tidy.add (h : Tidy (hashStr tag) chain) (id : UInt64) :
    Tidy (hashStr tag) (addToChain tag id chain) := by
  have hput (ids : IdArray) : (ids.put id).items ≠ [] := ne_nil_of_mem (mem_put_id.2 (.inl rfl))
  unfold addToChain
  split
  · have htag (n : TagNode) :
        (if n.tag = tag then { n with ids := n.ids.put id } else n).tag = n.tag := by split <;> rfl
    refine ⟨?_, fun m hm => ?_⟩
    · rw [map_map]
      exact (map_congr_left fun n _ => htag n) ▸ h.nodup
    · obtain ⟨n, hn, rfl⟩ := mem_map.1 hm
      rw [htag]
      refine ⟨(h.home n hn).1, ?_⟩
      split
      · exact hput n.ids
      · exact (h.home n hn).2
  · rename_i hnew
    refine ⟨nodup_cons.2 ⟨hnew, h.nodup⟩, forall_mem_cons.2 ⟨⟨rfl, hput _⟩, h.home⟩⟩

theorem sublist_removeFromChain (tag : CString) (id : UInt64) (chain : List TagNode) :
    ((removeFromChain tag id chain).map TagNode.tag).Sublist (chain.map TagNode.tag) := by
  induction chain with
  | nil => exact .refl _
  | cons n chain ih =>
    unfold removeFromChain
    split_ifs
    · exact .cons _ (.refl _)
    · exact .refl _
    · exact ih.cons_cons n.tag

theorem Tidy.remove (h : Tidy b chain) (tag : CString) (id : UInt64) :
    Tidy b (removeFromChain tag id chain) := by
  refine ⟨h.nodup.sublist (sublist_removeFromChain tag id chain), ?_⟩
  have hhome := h.home
  clear h
  induction chain with
  | nil => exact hhome
  | cons n chain ih =>
    obtain ⟨hn, hrest⟩ := forall_mem_cons.1 hhome
    unfold removeFromChain
    split_ifs with htag hempty
    · exact hrest
    · exact forall_mem_cons.2 ⟨⟨hn.1, hempty⟩, hrest⟩
    · exact forall_mem_cons.2 ⟨hn, ih hrest⟩

theorem holds_chainsIndex (h : ∀ b, Tidy b (c b)) :
    (chainsIndex c).Holds tag id ↔ InChain (c (hashStr tag)) tag id := by
  change id ∈ ((findNode c tag).elim .empty TagNode.ids).items ↔ _
  unfold findNode InChain
  cases hfind : (c (hashStr tag)).find? fun n => n.tag = tag with
  | none =>
    rw [List.find?_eq_none] at hfind
    refine iff_of_false not_mem_nil ?_
    rintro ⟨n, hn, htag, -⟩
    exact hfind n hn (by simp [htag])
  | some n =>
    have hn := mem_of_find?_eq_some hfind
    have htag : n.tag = tag := by simpa using find?_some hfind
    refine ⟨fun hid => ⟨n, hn, htag, hid⟩, ?_⟩
    rintro ⟨m, hm, hm', hid⟩
    obtain rfl := inj_on_of_nodup_map (h _).nodup hn hm (htag.trans hm'.symm)
    exact hid

theorem tidy_tagStep (h : ∀ b, Tidy b (c b)) (call : TagCall) (b : ℕ) : Tidy b (tagStep c call b) := by
  rw [tagStep, update_apply]
  split
  · rename_i hb
    subst hb
    cases call with
    | add tag id => exact (h _).add id
    | remove tag id => exact (h _).remove tag id
  · exact h b

/-- The pairs that the chains list. -/
def listed (c : TagChains) : Set (CString × UInt64) := {p | InChain (c (hashStr p.1)) p.1 p.2}

theorem listed_tagStep (h : ∀ b, Tidy b (c b)) (call : TagCall) :
    listed (tagStep c call) = tagPairs (listed c) call := by
  ext ⟨tag', id'⟩
  change InChain (tagStep c call (hashStr tag')) tag' id' ↔ _
  rw [tagStep, update_apply]
  split
  · rename_i hb
    cases call with
    | add tag id =>
      simp only [TagCall.onChain, TagCall.tag, inChain_addToChain, tagPairs, listed] at hb ⊢
      simp [hb]
    | remove tag id =>
      simp only [TagCall.onChain, TagCall.tag, inChain_removeFromChain (h _).nodup, tagPairs, listed]
        at hb ⊢
      simp [hb]
  · rename_i hb
    have hne : tag' ≠ call.tag := fun heq => hb (by rw [heq])
    cases call <;> simp_all [tagPairs, TagCall.tag, listed]

theorem run_tagStep (calls : List TagCall) (h : ∀ b, Tidy b (c b)) :
    (∀ b, Tidy b (calls.foldl tagStep c b)) ∧
      listed (calls.foldl tagStep c) = calls.foldl tagPairs (listed c) := by
  induction calls generalizing c with
  | nil => exact ⟨h, rfl⟩
  | cons call calls ih =>
    obtain ⟨htidy, hlisted⟩ := ih (tidy_tagStep h call)
    exact ⟨htidy, by rw [foldl_cons, hlisted, listed_tagStep h, foldl_cons]⟩

end

/-- Behind any calls, a lookup returns the ids that carry all of the tags, or any, in their order,
and every node holds an id of its tag. -/
theorem tagIndexQuery_exact (calls : List TagCall) {tags : List CString} (hne : tags ≠ [])
    (matchAll : Bool) :
    let c := calls.foldl tagStep fun _ => []
    let carried := calls.foldl tagPairs ∅
    (tagIndexQuery (chainsIndex c) tags matchAll).Pairwise (· < ·) ∧
      (∀ id, id ∈ tagIndexQuery (chainsIndex c) tags matchAll ↔
        if matchAll then ∀ tag ∈ tags, (tag, id) ∈ carried else ∃ tag ∈ tags, (tag, id) ∈ carried) ∧
      ∀ b, ∀ n ∈ c b, ∃ id, (n.tag, id) ∈ carried := by
  intro c carried
  obtain ⟨htidy, hlisted⟩ := run_tagStep calls
    (c := fun _ => []) fun b => ⟨nodup_nil, fun n hn => absurd hn not_mem_nil⟩
  have hcarried (tag : CString) (id : UInt64) :
      InChain (c (hashStr tag)) tag id ↔ (tag, id) ∈ carried := by
    have hstart : listed (fun _ => []) = ∅ := by
      ext p
      simp [listed, InChain]
    rw [hstart] at hlisted
    exact Set.ext_iff.1 hlisted (tag, id)
  refine ⟨pairwise_tagIndexQuery _ tags matchAll, fun id => ?_, fun b n hn => ?_⟩
  · simp only [mem_tagIndexQuery hne, holds_chainsIndex htidy, ← hcarried, c]
  · obtain ⟨hb, hids⟩ := (htidy b).home n hn
    obtain ⟨id, hid⟩ := exists_mem_of_ne_nil _ hids
    exact ⟨id, (hcarried n.tag id).1 ⟨n, hb ▸ hn, rfl, hid⟩⟩

theorem tagIndexQuery_of_two :
    let c := [TagCall.add (.ofBytes [116]) 1, .add (.ofBytes [116]) 2].foldl tagStep fun _ => []
    [CString.ofBytes [116]] ≠ [] ∧ 2 ∈ tagIndexQuery (chainsIndex c) [.ofBytes [116]] true :=
  ⟨by simp, ((tagIndexQuery_exact _ (by simp) true).2.1 2).2 (by simp [tagPairs])⟩

end AegisDB
