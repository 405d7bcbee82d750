import Beryllium.Lib.List
import Beryllium.Machine.System
import Mathlib.Data.List.Perm.Subperm

/-!
# Linked lists are sequences

The calls on one list (`listSystem`), in any order, from `list_create` on. Each is answered by
the operation on a sequence of nodes and values that it is for (`seqOp`): push to the back,
insert after a node or at the front, erase, remove the last or the first one.

A new node comes from `malloc`, or from the caller: it is a block of 12 bytes that does not
overlap a node of the list (`FreshNode`). So there are fewer nodes than a length or an index can
count (`NodesApart.length_lt`).

`list_refines`: after every run the list is the sequence (`ListSpec`).
-/

namespace Beryllium

open Machine

variable {α : Type*}

/-- The nodes, and the list. -/
structure ListState (α : Type*) where
  mem : ListMem α
  list : ListT

/-- The calls on a list. The answers of `malloc` are parts of them. -/
inductive ListOp (α : Type*) where
  | insert (node : ℕ) (item : α)
  /-- `list_append` of a node with any contents. -/
  | append (node : ℕ) (content : ListNode α)
  | insertAfter (before node : ℕ) (item : α)
  | delete (node : ℕ)
  | pop
  | dequeue

/-- The nodes on the way from the head. -/
def ListState.Member (s : ListState α) (node : ℕ) : Prop :=
  ∃ ns, Visits (fun a => (s.mem a).next) s.list.head ns ∧ node ∈ ns

/-- The address of a block of 12 bytes that overlaps no node of the list. -/
def ListState.FreshNode (s : ListState α) (node : ℕ) : Prop :=
  node ≠ 0 ∧ node + 12 ≤ 4294967296 ∧ ∀ q, s.Member q → node + 12 ≤ q ∨ q + 12 ≤ node

/-- What a call does to the state. -/
def listStep (s : ListState α) : ListOp α → ListState α
  | .insert node item =>
    let r := listInsert s.mem s.list node item
    ⟨r.1, r.2⟩
  | .append node content =>
    let r := listAppend (Function.update s.mem node content) s.list node
    ⟨r.1, r.2⟩
  | .insertAfter before node item =>
    let r := listInsertAfter s.mem s.list before node item
    ⟨r.1, r.2⟩
  | .delete node =>
    let r := listDelete s.mem s.list node
    ⟨r.1, r.2⟩
  | .pop =>
    let r := (listPop s.mem s.list).1
    ⟨r.1, r.2⟩
  | .dequeue =>
    let r := (listDequeue s.mem s.list).1
    ⟨r.1, r.2⟩

/-- The calls in any order: a new node is fresh, a node to insert after or to delete is in the
    list. -/
def listSystem : System (ListState α) (ListOp α) where
  init s := s.list = listCreate
  guard s
    | .insert node _ => s.FreshNode node
    | .append node _ => s.FreshNode node
    | .insertAfter before node _ => (before = 0 ∨ s.Member before) ∧ s.FreshNode node
    | .delete node => s.Member node
    | .pop => True
    | .dequeue => True
  step s op := some (listStep s op)

/-! ## Sequences -/

/-- The sequence with `x` after the node `before`. -/
def seqInsertAfter (before : ℕ) (x : ℕ × α) : List (ℕ × α) → List (ℕ × α)
  | [] => []
  | y :: xs => if y.1 = before then y :: x :: xs else y :: seqInsertAfter before x xs

/-- The operation on a sequence that a call is for. -/
def seqOp (xs : List (ℕ × α)) : ListOp α → List (ℕ × α)
  | .insert node item => xs ++ [(node, item)]
  | .append node content => xs ++ [(node, content.value)]
  | .insertAfter before node item =>
    if before = 0 then (node, item) :: xs else seqInsertAfter before (node, item) xs
  | .delete node => xs.eraseP fun x => x.1 = node
  | .pop => xs.dropLast
  | .dequeue => xs.tail

/-- The list is the sequence `xs`. -/
structure ListSpec [DecidableEq α] (s : ListState α) (xs : List (ℕ × α)) : Prop where
  /-- The nodes from the head on. -/
  forward : Visits (fun a => (s.mem a).next) s.list.head (xs.map Prod.fst)
  /-- The nodes back from the tail. -/
  backward : Visits (fun a => (s.mem a).prev) s.list.tail (xs.map Prod.fst).reverse
  first : ∀ x ∈ xs.head?, (s.mem x.1).prev = 0
  last : ∀ x ∈ xs.getLast?, (s.mem x.1).next = 0
  head : s.list.head = 0 ↔ xs = []
  tail : s.list.tail = 0 ↔ xs = []
  length : s.list.length = xs.length
  value : ∀ x ∈ xs, (s.mem x.1).value = x.2
  /-- `list_find` returns the first node with the value, or null. -/
  find : ∀ v, listFind s.mem s.list v =
    some (((xs.find? fun x => x.2 = v).map Prod.fst).getD 0)
  /-- `list_index_of` returns its index, or -1. -/
  indexOf : ∀ v, ∃ i, listIndexOf s.mem s.list v = some i ∧
    i.toInt = ((xs.findIdx? fun x => x.2 = v).map Int.ofNat).getD (-1)
  /-- What `list_pop` and `list_dequeue` return. -/
  pop : (listPop s.mem s.list).2 = (xs.getLast?.map Prod.fst).getD 0
  dequeue : (listDequeue s.mem s.list).2 = (xs.head?.map Prod.fst).getD 0

/-! ## The nodes in memory -/

variable {s s' : ListState α} {xs pre post : List (ℕ × α)} {ns ns' : List ℕ} {node before : ℕ}
  {x : ℕ × α} {w : α}

/-- The nodes are blocks of 12 bytes that do not overlap. -/
structure NodesApart (ns : List ℕ) : Prop where
  bound : ∀ a ∈ ns, a + 12 ≤ 4294967296
  apart : ∀ a ∈ ns, ∀ b ∈ ns, a ≠ b → a + 12 ≤ b ∨ b + 12 ≤ a

theorem nodesApart_nil : NodesApart [] :=
  ⟨fun _ h => absurd h List.not_mem_nil, fun _ h => absurd h List.not_mem_nil⟩

theorem NodesApart.subset (h : NodesApart ns) (hsub : ns' ⊆ ns) : NodesApart ns' :=
  ⟨fun a ha => h.bound a (hsub ha), fun a ha b hb => h.apart a (hsub ha) b (hsub hb)⟩

/-- Blocks of 12 bytes in `2 ^ 32` bytes: they can be counted with an `int`. -/
theorem NodesApart.length_lt (h : NodesApart ns) (hnodup : ns.Nodup) :
    ns.length < 2147483648 := by
  have hinj : (ns.map fun a => a / 12).Nodup := by
    refine hnodup.map_on fun a ha b hb hab => ?_
    by_contra hne
    have hapart := h.apart a ha b hb hne
    omega
  have hsub : (ns.map fun a => a / 12) ⊆ List.range 357913942 := by
    intro q hq
    obtain ⟨a, ha, rfl⟩ := List.mem_map.1 hq
    have hbound := h.bound a ha
    rw [List.mem_range]
    omega
  have hle := (hinj.subperm hsub).length_le
  rw [List.length_map, List.length_range] at hle
  omega

/-- What holds between the calls: the links are those of the sequence, in both directions. -/
structure ListInv (s : ListState α) (xs : List (ℕ × α)) : Prop where
  list : IsList s.mem False s.list xs
  nodes : NodesApart (xs.map Prod.fst)

theorem ListInv.member (h : ListInv s xs) : s.Member node ↔ node ∈ xs.map Prod.fst := by
  constructor
  · rintro ⟨ns, hns, hmem⟩
    rw [hns.unique h.list.links.visits_next] at hmem
    exact hmem
  · exact fun hmem => ⟨_, h.list.links.visits_next, hmem⟩

theorem ListInv.freshNode (h : ListInv s xs) : s.FreshNode node ↔ node ≠ 0 ∧
    node + 12 ≤ 4294967296 ∧ ∀ a ∈ xs.map Prod.fst, node + 12 ≤ a ∨ a + 12 ≤ node := by
  simp only [ListState.FreshNode, h.member]

theorem ListInv.not_mem (h : ListInv s xs) (hf : s.FreshNode node) : node ∉ xs.map Prod.fst := by
  intro hmem
  have hapart := (h.freshNode.1 hf).2.2 node hmem
  omega

/-- One more node is apart from the others. -/
theorem ListInv.nodesApart (h : ListInv s xs) (hf : s.FreshNode node)
    (hsub : ∀ a ∈ ns, a = node ∨ a ∈ xs.map Prod.fst) : NodesApart ns := by
  obtain ⟨-, hbound, hnew⟩ := h.freshNode.1 hf
  refine ⟨fun a ha => ?_, fun a ha b hb hab => ?_⟩
  · rcases hsub a ha with rfl | ha
    · exact hbound
    · exact h.nodes.bound a ha
  · rcases hsub a ha with rfl | ha <;> rcases hsub b hb with rfl | hb
    · exact absurd rfl hab
    · exact hnew b hb
    · exact (hnew a ha).symm
    · exact h.nodes.apart a ha b hb hab

/-! ## The steps -/

theorem seqInsertAfter_eq (h : before ∉ pre.map Prod.fst) :
    seqInsertAfter before x (pre ++ (before, w) :: post) = pre ++ (before, w) :: x :: post := by
  induction pre with
  | nil => exact if_pos rfl
  | cons y pre ih =>
    rw [List.map_cons, List.mem_cons, not_or] at h
    rw [List.cons_append, seqInsertAfter, if_neg (Ne.symm h.1), ih h.2]
    rfl

theorem eraseP_eq (h : node ∉ pre.map Prod.fst) :
    (pre ++ (node, w) :: post).eraseP (fun x => x.1 = node) = pre ++ post := by
  rw [List.eraseP_append_right, List.eraseP_cons_of_pos (by simp)]
  intro y hy hyn
  exact h (List.mem_map.2 ⟨y, hy, by simpa using hyn⟩)

/-- A node of the list splits it. -/
theorem exists_entry (h : node ∈ xs.map Prod.fst) :
    ∃ pre w post, xs = pre ++ (node, w) :: post := by
  obtain ⟨⟨n, w⟩, hx, rfl⟩ := List.mem_map.1 h
  obtain ⟨pre, post, rfl⟩ := List.append_of_mem hx
  exact ⟨pre, w, post, rfl⟩

theorem IsList.not_mem_pre {m : ListMem α} {list : ListT} {loose : Prop}
    (h : IsList m loose list (pre ++ (node, w) :: post)) : node ∉ pre.map Prod.fst := by
  intro hmem
  have hnodup := h.links.nodup
  rw [List.map_append, List.map_cons] at hnodup
  exact (List.nodup_append.1 hnodup).2.2 node hmem node List.mem_cons_self rfl

/-- `list_delete` of a node of a list that is not loose. -/
theorem IsList.delete_node {m : ListMem α} {list : ListT}
    (h : IsList m False list (pre ++ (node, w) :: post)) :
    IsList (listDelete m list node).1 False (listDelete m list node).2 (pre ++ post) := by
  refine (h.delete ?_).1
  have hlinks := h.links
  rw [List.map_append, List.map_cons] at hlinks
  exact hlinks.prev_eq.resolve_right fun hl => hl.1

theorem ListInv.insert (h : ListInv s xs) (hf : s.FreshNode node) {item : α} :
    ListInv (listStep s (.insert node item)) (xs ++ [(node, item)]) :=
  ⟨(h.list.insert (h.not_mem hf) hf.1).1, h.nodesApart hf fun a ha => by simpa [or_comm] using ha⟩

theorem ListInv.append (h : ListInv s xs) (hf : s.FreshNode node) {content : ListNode α} :
    ListInv (listStep s (.append node content)) (xs ++ [(node, content.value)]) := by
  have hnode := h.not_mem hf
  have hlist : IsList (Function.update s.mem node content) False s.list xs :=
    h.list.congr fun a ha => Function.update_of_ne (ne_of_mem_of_not_mem ha hnode) ..
  have hv : (Function.update s.mem node content node).value = content.value := by
    rw [Function.update_self]
  exact ⟨(hlist.append hnode hf.1 hv).1, h.nodesApart hf fun a ha => by simpa [or_comm] using ha⟩

/-- `list_insert_after` at the front. -/
theorem ListInv.insertAfter_front (h : ListInv s xs) (hf : s.FreshNode node) {item : α} :
    ListInv (listStep s (.insertAfter 0 node item)) ((node, item) :: xs) := by
  have hnode := h.not_mem hf
  refine ⟨?_, h.nodesApart hf fun a ha => List.mem_cons.1 ha⟩
  by_cases hxs : xs = []
  · subst hxs
    have he : listInsertAfter s.mem s.list 0 node item = listInsert s.mem s.list node item := by
      rw [listInsertAfter, listAppendAfter, if_pos (h.list.links.tail_eq_zero.2 rfl), listInsert]
    simp only [listStep, he]
    exact (h.list.insert hnode hf.1).1
  · exact ((h.list.listNode hnode).appendAfter_front hxs hnode hf.1 listNode_self).1

/-- `list_insert_after` a node of the list. -/
theorem ListInv.insertAfter (h : ListInv s (pre ++ (before, w) :: post)) (hf : s.FreshNode node)
    {item : α} :
    ListInv (listStep s (.insertAfter before node item))
      (pre ++ (before, w) :: (node, item) :: post) := by
  have hnode := h.not_mem hf
  refine ⟨((h.list.listNode hnode).appendAfter hnode hf.1 listNode_self).1,
    h.nodesApart hf fun a ha => ?_⟩
  simp only [List.map_append, List.map_cons, List.mem_append, List.mem_cons] at ha ⊢
  tauto

theorem ListInv.delete (h : ListInv s (pre ++ (node, w) :: post)) :
    ListInv (listStep s (.delete node)) (pre ++ post) := by
  have hsub : pre ++ post ⊆ pre ++ (node, w) :: post :=
    ((List.sublist_cons_self (node, w) post).append_left pre).subset
  exact ⟨h.list.delete_node, h.nodes.subset (List.map_subset _ hsub)⟩

/-- The tail is the last entry. -/
theorem ListInv.tail_entry (h : ListInv s xs) (ht : s.list.tail ≠ 0) :
    ∃ pre w, xs = pre ++ [(s.list.tail, w)] := by
  rcases List.eq_nil_or_concat xs with rfl | ⟨pre, ⟨a, w⟩, rfl⟩
  · exact absurd (h.list.links.tail_eq_zero.2 rfl) ht
  · rw [List.concat_eq_append] at h ⊢
    have htail := h.list.links.tail_eq
    rw [List.map_append, List.map_singleton, getLastD_append] at htail
    exact ⟨pre, w, by rw [htail]; rfl⟩

/-- The head is the first entry. -/
theorem ListInv.head_entry (h : ListInv s xs) (hh : s.list.head ≠ 0) :
    ∃ w post, xs = (s.list.head, w) :: post := by
  cases xs with
  | nil => exact absurd (h.list.links.head_eq_zero.2 rfl) hh
  | cons x post =>
    have hhead := h.list.links.head_eq
    rw [List.map_cons, List.headD_cons] at hhead
    exact ⟨x.2, post, by rw [hhead]⟩

theorem ListInv.pop (h : ListInv s xs) : ListInv (listStep s .pop) xs.dropLast := by
  by_cases ht : s.list.tail = 0
  · have hxs : xs = [] := map_fst_eq_nil.1 (h.list.links.tail_eq_zero.1 ht)
    subst hxs
    simp only [listStep, listPop, if_pos ht]
    exact h
  · obtain ⟨pre, w, rfl⟩ := h.tail_entry ht
    have hdelete := h.delete
    rw [List.append_nil] at hdelete
    rw [List.dropLast_concat]
    simp only [listStep, listPop, if_neg ht]
    exact hdelete

theorem ListInv.dequeue (h : ListInv s xs) : ListInv (listStep s .dequeue) xs.tail := by
  by_cases hh : s.list.head = 0
  · have hxs : xs = [] := map_fst_eq_nil.1 (h.list.links.head_eq_zero.1 hh)
    subst hxs
    simp only [listStep, listDequeue, if_pos hh]
    exact h
  · obtain ⟨w, post, rfl⟩ := h.head_entry hh
    have hsplit : ListInv s ([] ++ (s.list.head, w) :: post) := h
    have hdelete : ListInv (listStep s (.delete s.list.head)) ([] ++ post) := hsplit.delete
    simp only [listStep, listDequeue, if_neg hh]
    exact hdelete

/-- Every call is answered by the operation on the sequence. -/
theorem ListInv.step {op : ListOp α} (h : ListInv s xs) (hg : listSystem.guard s op) :
    ListInv (listStep s op) (seqOp xs op) := by
  cases op with
  | insert node item => exact h.insert hg
  | append node content => exact h.append hg
  | insertAfter before node item =>
    obtain ⟨hbefore, hf⟩ := hg
    by_cases hb₀ : before = 0
    · subst hb₀
      rw [seqOp, if_pos rfl]
      exact h.insertAfter_front hf
    · obtain ⟨pre, w, post, rfl⟩ := exists_entry (h.member.1 (hbefore.resolve_left hb₀))
      rw [seqOp, if_neg hb₀, seqInsertAfter_eq h.list.not_mem_pre]
      exact h.insertAfter hf
  | delete node =>
    obtain ⟨pre, w, post, rfl⟩ := exists_entry (h.member.1 hg)
    rw [seqOp, eraseP_eq h.list.not_mem_pre]
    exact h.delete
  | pop => exact h.pop
  | dequeue => exact h.dequeue

/-! ## What the invariant says -/

theorem ListInv.length_lt (h : ListInv s xs) : xs.length < 2147483648 := by
  have hlt := h.nodes.length_lt h.list.links.nodup
  rwa [List.length_map] at hlt

/-- The first index as an `int`. -/
theorem toInt_indexOf {k : Option ℕ} (hk : ∀ i ∈ k, i < 2147483648) :
    ((k.map (BitVec.ofNat 32)).getD (-1)).toInt = (k.map Int.ofNat).getD (-1) := by
  cases k with
  | none => rfl
  | some i =>
    have hi : i < 2147483648 := hk i rfl
    rw [Option.map_some, Option.map_some, Option.getD_some, Option.getD_some,
      BitVec.toInt_eq_toNat_of_lt (by rw [BitVec.toNat_ofNat]; omega), BitVec.toNat_ofNat,
      Nat.mod_eq_of_lt (by omega)]
    rfl

theorem ListInv.spec [DecidableEq α] (h : ListInv s xs) : ListSpec s xs where
  forward := h.list.links.visits_next
  backward := h.list.links.visits_prev
  first := by
    rintro x hx
    obtain ⟨post, rfl⟩ := List.head?_eq_some_iff.1 hx
    exact h.list.links.seg.1.resolve_right fun hl => hl.1
  last := by
    rintro x hx
    obtain ⟨pre, rfl⟩ := List.getLast?_eq_some_iff.1 hx
    have hlinks := h.list.links
    rw [List.map_append] at hlinks
    exact hlinks.next_eq
  head := h.list.links.head_eq_zero.trans map_fst_eq_nil
  tail := h.list.links.tail_eq_zero.trans map_fst_eq_nil
  length := by
    have hlt := h.length_lt
    rw [h.list.length, Nat.mod_eq_of_lt (by omega)]
  value := h.list.value
  find v := by
    have hlt := h.length_lt
    exact h.list.find (by rw [nodeFuel]; omega) v
  indexOf v := by
    have hlt := h.length_lt
    refine ⟨_, h.list.indexOf (by rw [nodeFuel]; omega) v, toInt_indexOf fun i hi => ?_⟩
    have hi := (List.findIdx?_eq_some_iff_findIdx_eq.1 hi).1
    omega
  pop := by
    by_cases ht : s.list.tail = 0
    · have hxs : xs = [] := map_fst_eq_nil.1 (h.list.links.tail_eq_zero.1 ht)
      rw [listPop, if_pos ht, hxs]
      rfl
    · obtain ⟨pre, w, hxs⟩ := h.tail_entry ht
      rw [listPop, if_neg ht, hxs, List.getLast?_concat]
      rfl
  dequeue := by
    by_cases hh : s.list.head = 0
    · have hxs : xs = [] := map_fst_eq_nil.1 (h.list.links.head_eq_zero.1 hh)
      rw [listDequeue, if_pos hh, hxs]
      rfl
    · obtain ⟨w, post, hxs⟩ := h.head_entry hh
      rw [listDequeue, if_neg hh, hxs]
      rfl

theorem ListInv.of_init {s₀ : ListState α} (h : listSystem.init s₀) : ListInv s₀ [] := by
  refine ⟨?_, nodesApart_nil⟩
  rw [show s₀.list = listCreate from h]
  exact isList_create

/-- From `list_create` on, over every sequence of calls, the list is the sequence that the
    operations on a sequence make. -/
theorem list_refines [DecidableEq α] {s₀ : ListState α} {ops : List (ListOp α)}
    (h₀ : listSystem.init s₀) (hrun : listSystem.Run s₀ ops s) :
    ListSpec s (ops.foldl seqOp []) := by
  refine ListInv.spec (hrun.refines (fun t xs op t' ht hg hst => ?_) (.of_init h₀))
  rw [← Option.some.inj hst]
  exact ht.step hg

/-- Two nodes, the second one at the front, and the first one deleted. -/
theorem list_refines_two : ∃ s : ListState ℕ, ListSpec s [(32, 8)] := by
  obtain ⟨s₀, hs₀⟩ : ∃ s₀ : ListState ℕ, listSystem.init s₀ :=
    ⟨⟨fun _ => ⟨0, 0, 0⟩, listCreate⟩, rfl⟩
  have h₀ : ListInv s₀ [] := .of_init hs₀
  have hg₁ : listSystem.guard s₀ (.insert 16 7) := h₀.freshNode.2 (by simp)
  have h₁ : ListInv _ [(16, 7)] := h₀.step hg₁
  have hg₂ : listSystem.guard _ (.insertAfter 0 32 8) := ⟨.inl rfl, h₁.freshNode.2 (by simp)⟩
  have h₂ : ListInv _ [(32, 8), (16, 7)] := h₁.step hg₂
  have hg₃ : listSystem.guard _ (.delete 16) := h₂.member.2 (by simp)
  have hrun : listSystem.Run s₀ [.insert 16 7, .insertAfter 0 32 8, .delete 16] _ :=
    .cons hg₁ rfl (.cons hg₂ rfl (.cons hg₃ rfl (.nil _)))
  exact ⟨_, list_refines hs₀ hrun⟩

end Beryllium
