import Beryllium.Machine.DList
import Beryllium.Machine.Memory
import Mathlib.Algebra.Ring.Nat
import Mathlib.Logic.Function.Basic

/-!
# Linked lists

The lists of `kernel/lib/list.c`. The nodes of all lists are in one memory (`ListMem`): at each
address its links and its value. A function gets the memory and the list it works on, and answers
with both; a function that allocates a node gets it as an argument.

`IsList m loose l xs`: the list `l` consists of the nodes and values `xs`. Every function
keeps it for its own list, and changes no node outside of it (`IsList.append`,
`IsList.appendAfter`, `IsList.delete`, `IsList.merge`).
-/

namespace Beryllium

open Machine

/-- `list_node_t` -/
@[ext] structure ListNode (α : Type*) where
  next : ℕ
  prev : ℕ
  value : α

/-- `list_t` -/
structure ListT where
  head : ℕ
  tail : ℕ
  length : ℕ

/-- The nodes of all lists. -/
abbrev ListMem (α : Type*) := ℕ → ListNode α

variable {α : Type*}

namespace ListMem

variable (m : ListMem α) (p : ℕ)

/-- `p->next = v` -/
def setNext (v : ℕ) : ListMem α := Function.update m p { m p with next := v }

/-- `p->prev = v` -/
def setPrev (v : ℕ) : ListMem α := Function.update m p { m p with prev := v }

/-- `p->value = v` -/
def setValue (v : α) : ListMem α := Function.update m p { m p with value := v }

variable {m p} {a v : ℕ} {w : α}

/-- An assignment to one field leaves another one as it was. -/
theorem apply_update {β : Type*} {n : ListNode α} (g : ListNode α → β) (h : g n = g (m p)) :
    g (Function.update m p n a) = g (m a) := by
  rw [Function.update_apply]
  split_ifs with ha
  · rw [h, ha]
  · rfl

theorem next_setNext : (m.setNext p v a).next = if a = p then v else (m a).next := by
  rw [setNext, Function.update_apply]
  split_ifs <;> rfl

@[simp] theorem prev_setNext : (m.setNext p v a).prev = (m a).prev :=
  apply_update ListNode.prev rfl

@[simp] theorem value_setNext : (m.setNext p v a).value = (m a).value :=
  apply_update ListNode.value rfl

theorem prev_setPrev : (m.setPrev p v a).prev = if a = p then v else (m a).prev := by
  rw [setPrev, Function.update_apply]
  split_ifs <;> rfl

@[simp] theorem next_setPrev : (m.setPrev p v a).next = (m a).next :=
  apply_update ListNode.next rfl

@[simp] theorem value_setPrev : (m.setPrev p v a).value = (m a).value :=
  apply_update ListNode.value rfl

/-- Assignments to two nodes do not depend on their order. -/
theorem setNext_setPrev {q u : ℕ} (h : p ≠ q) :
    (m.setPrev p v).setNext q u = (m.setNext q u).setPrev p v := by
  rw [setNext, setNext, setPrev, setPrev, Function.update_of_ne h.symm, Function.update_of_ne h,
    Function.update_comm h.symm]

theorem setNext_of_ne (h : a ≠ p) : m.setNext p v a = m a := Function.update_of_ne h ..

theorem setPrev_of_ne (h : a ≠ p) : m.setPrev p v a = m a := Function.update_of_ne h ..

theorem setValue_of_ne (h : a ≠ p) : m.setValue p w a = m a := Function.update_of_ne h ..

end ListMem

/-! ## The functions -/

/-- `list_create` -/
def listCreate : ListT := ⟨0, 0, 0⟩

/-- `list_append` -/
def listAppend (m : ListMem α) (list : ListT) (node : ℕ) : ListMem α × ListT :=
  let m := m.setNext node 0
  let r := if list.tail = 0 then (m.setPrev node 0, { list with head := node })
    else ((m.setNext list.tail node).setPrev node list.tail, list)
  (r.1, { r.2 with tail := node, length := add32 list.length 1 })

/-- A node from `malloc`, with its fields set. -/
def listNode (m : ListMem α) (node : ℕ) (item : α) : ListMem α :=
  ((m.setValue node item).setNext node 0).setPrev node 0

/-- `list_insert` -/
def listInsert (m : ListMem α) (list : ListT) (node : ℕ) (item : α) : ListMem α × ListT :=
  listAppend (listNode m node item) list node

/-- `list_append_after` -/
def listAppendAfter (m : ListMem α) (list : ListT) (before node : ℕ) : ListMem α × ListT :=
  if list.tail = 0 then listAppend m list node
  else if before = 0 then
    let m := m.setNext node list.head
    let m := m.setPrev list.head node
    (m, { list with head := node, length := add32 list.length 1 })
  else
    let r := if before = list.tail then (m, { list with tail := node })
      else
        let m := m.setPrev (m before).next node
        (m.setNext node (m before).next, list)
    let m := r.1.setPrev node before
    let m := m.setNext before node
    (m, { r.2 with length := add32 list.length 1 })

/-- `list_insert_after` -/
def listInsertAfter (m : ListMem α) (list : ListT) (before node : ℕ) (item : α) :
    ListMem α × ListT :=
  listAppendAfter (listNode m node item) list before node

/-- The loop of `list_find`, from `item` on. -/
def findLoop [DecidableEq α] (m : ListMem α) (value : α) : ℕ → ℕ → Option ℕ
  | 0, _ => none
  | fuel + 1, item =>
    if item = 0 then some 0
    else if (m item).value = value then some item
    else findLoop m value fuel (m item).next

/-- More nodes than there are addresses. -/
def nodeFuel : ℕ := 2 ^ 32

/-- `list_find` -/
def listFind [DecidableEq α] (m : ListMem α) (list : ListT) (value : α) : Option ℕ :=
  findLoop m value nodeFuel list.head

/-- The loop of `list_index_of`, from `item` and `i` on. -/
def indexLoop [DecidableEq α] (m : ListMem α) (value : α) : ℕ → ℕ → BitVec 32 → Option (BitVec 32)
  | 0, _, _ => none
  | fuel + 1, item, i =>
    if item = 0 then some (-1)
    else if (m item).value = value then some i
    else indexLoop m value fuel (m item).next (i + 1)

/-- `list_index_of` -/
def listIndexOf [DecidableEq α] (m : ListMem α) (list : ListT) (value : α) : Option (BitVec 32) :=
  indexLoop m value nodeFuel list.head 0

/-- `list_delete` -/
def listDelete (m : ListMem α) (list : ListT) (node : ℕ) : ListMem α × ListT :=
  let l := if node = list.head then { list with head := (m node).next } else list
  let l := if node = l.tail then { l with tail := (m node).prev } else l
  let m := if (m node).prev ≠ 0 then m.setNext (m node).prev (m node).next else m
  let m := if (m node).next ≠ 0 then m.setPrev (m node).next (m node).prev else m
  let m := m.setPrev node 0
  let m := m.setNext node 0
  (m, { l with length := sub32 l.length 1 })

/-- `list_pop`, with the node it returns. -/
def listPop (m : ListMem α) (list : ListT) : (ListMem α × ListT) × ℕ :=
  if list.tail = 0 then ((m, list), 0) else (listDelete m list list.tail, list.tail)

/-- `list_dequeue`, with the node it returns. -/
def listDequeue (m : ListMem α) (list : ListT) : (ListMem α × ListT) × ℕ :=
  if list.head = 0 then ((m, list), 0) else (listDelete m list list.head, list.head)

/-- `list_merge`: `source` is freed. -/
def listMerge (m : ListMem α) (target source : ListT) : ListMem α × ListT :=
  let r := if target.tail ≠ 0 then (m.setNext target.tail source.head, target)
    else (m, { target with head := source.head })
  let l := if source.tail ≠ 0 then { r.2 with tail := source.tail } else r.2
  (r.1, { l with length := add32 target.length source.length })

/-! ## Lists in memory -/

/-- The list consists of the nodes and values `xs`. A loose list may have lost back links. -/
structure IsList (m : ListMem α) (loose : Prop) (list : ListT) (xs : List (ℕ × α)) : Prop where
  links : DList (fun a => (m a).next) (fun a => (m a).prev) loose list.head list.tail
    (xs.map Prod.fst)
  value : ∀ x ∈ xs, (m x.1).value = x.2
  length : list.length = xs.length % 4294967296

variable {m m' : ListMem α} {loose : Prop} {list list' : ListT} {xs ys pre post : List (ℕ × α)}
  {node before x : ℕ} {item v w : α}

theorem isList_create : IsList m loose listCreate [] :=
  ⟨dlist_nil, fun _ h => absurd h List.not_mem_nil, rfl⟩

theorem IsList.congr (h : IsList m loose list xs) (hm : ∀ a ∈ xs.map Prod.fst, m' a = m a) :
    IsList m' loose list xs :=
  ⟨h.links.congr (fun a ha => by rw [hm a ha]) fun a ha => by rw [hm a ha],
    fun x hx => by rw [hm x.1 (List.mem_map_of_mem hx), h.value x hx], h.length⟩

theorem map_fst_eq_nil : xs.map Prod.fst = [] ↔ xs = [] := List.map_eq_nil_iff

/-- The length after one more node. -/
theorem add32_length {n k : ℕ} (h : n = k % 4294967296) : add32 n 1 = (k + 1) % 4294967296 := by
  rw [h, add32]
  omega

/-- What a list function changes: the nodes of the list, and the new node. -/
def OnlyChanges (m m' : ListMem α) (ns : List ℕ) : Prop := ∀ a, a ∉ ns → m' a = m a

/-- `list_append` of a node that is not in the list. -/
theorem IsList.append (h : IsList m loose list xs) (hnode : node ∉ xs.map Prod.fst)
    (h₀ : node ≠ 0) (hv : (m node).value = v) : IsList (listAppend m list node).1 loose
      (listAppend m list node).2 (xs ++ [(node, v)]) ∧
    OnlyChanges m (listAppend m list node).1 (node :: xs.map Prod.fst) := by
  have hlength : add32 list.length 1 = (xs ++ [(node, v)]).length % 4294967296 := by
    rw [List.length_append, add32_length h.length]
    rfl
  have hne : ∀ a ∈ xs.map Prod.fst, a ≠ node := by
    rintro a ha rfl
    exact hnode ha
  have hvalue : ∀ x ∈ xs ++ [(node, v)], ((listAppend m list node).1 x.1).value = x.2 := by
    intro x hx
    have hm : ((listAppend m list node).1 x.1).value = (m x.1).value := by
      rw [listAppend]
      split_ifs <;> simp
    rw [hm]
    rcases List.mem_append.1 hx with hx | hx
    · exact h.value x hx
    · rw [List.mem_singleton.1 hx, hv]
  refine ⟨⟨?_, hvalue, hlength⟩, ?_⟩
  · -- the links: of an empty list, and of one with a last node
    rw [List.map_append]
    by_cases ht : list.tail = 0
    · have hnil := h.links.tail_eq_zero.1 ht
      have hlinks : DList (fun a => (((m.setNext node 0).setPrev node 0) a).next)
          (fun a => (((m.setNext node 0).setPrev node 0) a).prev) loose _ node _ :=
        h.links.push hnode h₀ (fun a ha _ => by simp [ListMem.next_setNext, hne a ha])
          (fun a ha => by simp [ListMem.prev_setPrev, hne a ha]) (fun hne => absurd hnil hne)
          (by simp [ListMem.next_setNext]) (by simp [ListMem.prev_setPrev, ht])
      rw [if_pos hnil] at hlinks
      simp only [listAppend, if_pos ht]
      exact hlinks
    · have hnil : xs.map Prod.fst ≠ [] := fun hnil => ht (h.links.tail_eq_zero.2 hnil)
      have hnt : node ≠ list.tail := (hne _ (h.links.tail_mem hnil)).symm
      have hlinks : DList
          (fun a => ((((m.setNext node 0).setNext list.tail node).setPrev node list.tail) a).next)
          (fun a => ((((m.setNext node 0).setNext list.tail node).setPrev node list.tail) a).prev)
          loose _ node _ :=
        h.links.push hnode h₀ (fun a ha hat => by simp [ListMem.next_setNext, hne a ha, hat])
          (fun a ha => by simp [ListMem.prev_setPrev, hne a ha])
          (fun _ => by simp [ListMem.next_setNext]) (by simp [ListMem.next_setNext, hnt])
          (by simp [ListMem.prev_setPrev])
      rw [if_neg hnil] at hlinks
      simp only [listAppend, if_neg ht]
      exact hlinks
  · intro a ha
    obtain ⟨ha, hxs⟩ := not_or.1 (mt List.mem_cons.2 ha)
    rw [listAppend]
    split_ifs with ht
    · exact (ListMem.setPrev_of_ne ha).trans (ListMem.setNext_of_ne ha)
    · have hat : a ≠ list.tail := by
        rintro rfl
        exact hxs (h.links.tail_mem fun hnil => ht (h.links.tail_eq_zero.2 hnil))
      exact (ListMem.setPrev_of_ne ha).trans
        ((ListMem.setNext_of_ne hat).trans (ListMem.setNext_of_ne ha))

/-! ### A node from malloc -/

theorem listNode_of_ne {a : ℕ} (h : a ≠ node) : listNode m node item a = m a :=
  (ListMem.setPrev_of_ne h).trans ((ListMem.setNext_of_ne h).trans (ListMem.setValue_of_ne h))

theorem listNode_self : listNode m node item node = ⟨0, 0, item⟩ := by
  simp [listNode, ListMem.setValue, ListMem.setNext, ListMem.setPrev]

/-- Setting up a new node does not touch a list. -/
theorem IsList.listNode (h : IsList m loose list xs) (hnode : node ∉ xs.map Prod.fst) :
    IsList (listNode m node item) loose list xs := by
  refine h.congr fun a ha => listNode_of_ne ?_
  rintro rfl
  exact hnode ha

theorem OnlyChanges.of_listNode {ns : List ℕ}
    (h : OnlyChanges (Beryllium.listNode m node item) m' (node :: ns)) :
    OnlyChanges m m' (node :: ns) := fun a ha => by
  obtain ⟨hne, -⟩ := not_or.1 (mt List.mem_cons.2 ha)
  rw [h a ha, listNode_of_ne hne]

/-- `list_insert` -/
theorem IsList.insert (h : IsList m loose list xs) (hnode : node ∉ xs.map Prod.fst)
    (h₀ : node ≠ 0) : IsList (listInsert m list node item).1 loose
      (listInsert m list node item).2 (xs ++ [(node, item)]) ∧
    OnlyChanges m (listInsert m list node item).1 (node :: xs.map Prod.fst) := by
  have hv : (Beryllium.listNode m node item node).value = item := by
    rw [listNode_self]
  obtain ⟨hlist, honly⟩ := (h.listNode hnode).append hnode h₀ hv
  exact ⟨hlist, honly.of_listNode⟩

/-! ### Insertion after a node -/

/-- `list_append_after` of a new node at the front. -/
theorem IsList.appendAfter_front (h : IsList m loose list xs) (hne : xs ≠ [])
    (hnode : node ∉ xs.map Prod.fst) (h₀ : node ≠ 0) (hnew : m node = ⟨0, 0, v⟩) :
    IsList (listAppendAfter m list 0 node).1 loose (listAppendAfter m list 0 node).2
      ((node, v) :: xs) ∧
    OnlyChanges m (listAppendAfter m list 0 node).1 (node :: xs.map Prod.fst) := by
  have hne' : xs.map Prod.fst ≠ [] := fun hnil => hne (map_fst_eq_nil.1 hnil)
  have ht : list.tail ≠ 0 := fun ht => hne' (h.links.tail_eq_zero.1 ht)
  have hhead : list.head ∈ xs.map Prod.fst := h.links.head_mem hne'
  have hn : ∀ a ∈ xs.map Prod.fst, a ≠ node := by
    rintro a ha rfl
    exact hnode ha
  have hnh := (hn _ hhead).symm
  have hlinks : DList (fun a => (((m.setNext node list.head).setPrev list.head node) a).next)
      (fun a => (((m.setNext node list.head).setPrev list.head node) a).prev) loose node _ _ :=
    h.links.push_front hne' hnode h₀ (fun a ha => by simp [ListMem.next_setNext, hn a ha])
      (fun a ha hah => by simp [ListMem.prev_setPrev, hah]) (by simp [ListMem.prev_setPrev])
      (by simp [ListMem.next_setNext]) (by simp [ListMem.prev_setPrev, hnh, hnew])
  have he : listAppendAfter m list 0 node = ((m.setNext node list.head).setPrev list.head node,
      ⟨node, list.tail, add32 list.length 1⟩) := by
    rw [listAppendAfter, if_neg ht, if_pos rfl]
  rw [he]
  refine ⟨⟨hlinks, fun x hx => ?_, ?_⟩, fun a ha => ?_⟩
  · simp only [ListMem.value_setPrev, ListMem.value_setNext]
    rcases List.mem_cons.1 hx with rfl | hx
    · rw [hnew]
    · exact h.value x hx
  · rw [List.length_cons, add32_length h.length]
  · obtain ⟨ha, hxs⟩ := not_or.1 (mt List.mem_cons.2 ha)
    refine (ListMem.setPrev_of_ne ?_).trans (ListMem.setNext_of_ne ha)
    rintro rfl
    exact hxs hhead

/-- After the last node, `list_append_after` does what `list_append` does. -/
theorem listAppendAfter_tail (ht : list.tail ≠ 0) (hnode : node ≠ list.tail)
    (hnew : (m node).next = 0) :
    listAppendAfter m list list.tail node = listAppend m list node := by
  have hclear : m.setNext node 0 = m := by
    rw [ListMem.setNext, ← hnew]
    exact Function.update_eq_self node m
  simp only [listAppendAfter, listAppend, if_neg ht, if_pos, hclear]
  rw [ListMem.setNext_setPrev hnode]

theorem IsList.appendAfter_last (h : IsList m loose list (pre ++ [(before, w)]))
    (hnode : node ∉ (pre ++ [(before, w)]).map Prod.fst) (h₀ : node ≠ 0)
    (hnew : m node = ⟨0, 0, v⟩) :
    IsList (listAppendAfter m list before node).1 loose (listAppendAfter m list before node).2
      (pre ++ [(before, w), (node, v)]) ∧
    OnlyChanges m (listAppendAfter m list before node).1
      (node :: (pre ++ [(before, w)]).map Prod.fst) := by
  have hlinks := h.links
  have hmem : before ∈ (pre ++ [(before, w)]).map Prod.fst := by simp
  rw [List.map_append] at hlinks
  obtain rfl : before = list.tail := hlinks.eq_tail_iff.2 rfl
  have ht : list.tail ≠ 0 := fun ht => by
    rw [h.links.tail_eq_zero.1 ht] at hmem
    exact List.not_mem_nil hmem
  have hnt : node ≠ list.tail := by
    rintro rfl
    exact hnode hmem
  rw [listAppendAfter_tail ht hnt (by rw [hnew])]
  have happend := h.append hnode h₀ (by rw [hnew])
  rwa [List.append_assoc] at happend

/-- After any other node, the node after it gets the new one before it. -/
theorem listAppendAfter_of_ne (ht : list.tail ≠ 0) (hb₀ : before ≠ 0) (hlast : before ≠ list.tail) :
    listAppendAfter m list before node =
      ((((m.setPrev (m before).next node).setNext node (m before).next).setPrev node
        before).setNext before node, ⟨list.head, list.tail, add32 list.length 1⟩) := by
  rw [listAppendAfter, if_neg ht, if_neg hb₀, if_neg hlast]
  simp only [ListMem.next_setPrev]

theorem IsList.appendAfter_middle (h : IsList m loose list (pre ++ (before, w) :: post))
    (hpost : post ≠ []) (hnode : node ∉ (pre ++ (before, w) :: post).map Prod.fst) (h₀ : node ≠ 0)
    (hnew : m node = ⟨0, 0, v⟩) :
    IsList (listAppendAfter m list before node).1 loose (listAppendAfter m list before node).2
      (pre ++ (before, w) :: (node, v) :: post) ∧
    OnlyChanges m (listAppendAfter m list before node).1
      (node :: (pre ++ (before, w) :: post).map Prod.fst) := by
  have hns : (pre ++ (before, w) :: post).map Prod.fst =
      pre.map Prod.fst ++ before :: post.map Prod.fst := by
    rw [List.map_append, List.map_cons]
  have hlist := h.links
  have hlength := h.length
  rw [hns] at hnode hlist ⊢
  have hbefore : before ∈ pre.map Prod.fst ++ before :: post.map Prod.fst :=
    List.mem_append_right _ List.mem_cons_self
  have hb₀ : before ≠ 0 := by
    rintro rfl
    exact hlist.ne_zero hbefore
  have ht : list.tail ≠ 0 := fun ht => by
    rw [hlist.tail_eq_zero.1 ht] at hbefore
    exact List.not_mem_nil hbefore
  have hlast : before ≠ list.tail :=
    fun hlast => hpost (map_fst_eq_nil.1 (hlist.eq_tail_iff.1 hlast))
  -- the node after `before`
  have hc : (m before).next ∈ post.map Prod.fst := hlist.next_mem fun hnil =>
    hpost (map_fst_eq_nil.1 hnil)
  have hcmem : (m before).next ∈ pre.map Prod.fst ++ before :: post.map Prod.fst :=
    List.mem_append_right _ (List.mem_cons_of_mem _ hc)
  have hn : ∀ a ∈ pre.map Prod.fst ++ before :: post.map Prod.fst, a ≠ node := by
    rintro a ha rfl
    exact hnode ha
  have hbn : node ≠ before := (hn _ hbefore).symm
  have hcn : node ≠ (m before).next := (hn _ hcmem).symm
  rw [listAppendAfter_of_ne ht hb₀ hlast]
  refine ⟨⟨?_, fun x hx => ?_, ?_⟩, fun a ha => ?_⟩
  · rw [List.map_append, List.map_cons, List.map_cons]
    exact hlist.insert (List.ne_nil_of_mem hc) hnode h₀
      (fun a ha hab => by simp [ListMem.next_setNext, hab, hn a ha])
      (fun a ha hac => by simp [ListMem.prev_setPrev, hn a ha, hac])
      (by simp [ListMem.next_setNext]) (by simp [ListMem.prev_setPrev, hcn.symm])
      (by simp [ListMem.next_setNext, hbn]) (by simp [ListMem.prev_setPrev])
  · simp only [ListMem.value_setNext, ListMem.value_setPrev]
    by_cases hxn : x = (node, v)
    · rw [hxn, hnew]
    · refine h.value x ?_
      simpa [hxn] using hx
  · rw [add32_length hlength]
    simp only [List.length_append, List.length_cons, Nat.add_assoc]
  · obtain ⟨ha, hxs⟩ := not_or.1 (mt List.mem_cons.2 ha)
    have hab : a ≠ before := fun hab => hxs (hab ▸ hbefore)
    have hac : a ≠ (m before).next := fun hac => hxs (hac ▸ hcmem)
    exact (ListMem.setNext_of_ne hab).trans ((ListMem.setPrev_of_ne ha).trans
      ((ListMem.setNext_of_ne ha).trans (ListMem.setPrev_of_ne hac)))

/-- `list_append_after` of a new node after a node of the list. -/
theorem IsList.appendAfter (h : IsList m loose list (pre ++ (before, w) :: post))
    (hnode : node ∉ (pre ++ (before, w) :: post).map Prod.fst) (h₀ : node ≠ 0)
    (hnew : m node = ⟨0, 0, v⟩) :
    IsList (listAppendAfter m list before node).1 loose (listAppendAfter m list before node).2
      (pre ++ (before, w) :: (node, v) :: post) ∧
    OnlyChanges m (listAppendAfter m list before node).1
      (node :: (pre ++ (before, w) :: post).map Prod.fst) := by
  by_cases hpost : post = []
  · subst hpost
    exact h.appendAfter_last hnode h₀ hnew
  · exact h.appendAfter_middle hpost hnode h₀ hnew

/-! ### Deletion -/

section

variable {a : ℕ}

theorem listDelete_list : (listDelete m list node).2 =
    ⟨if node = list.head then (m node).next else list.head,
      if node = list.tail then (m node).prev else list.tail, sub32 list.length 1⟩ := by
  simp only [listDelete]
  split_ifs <;> rfl

theorem listDelete_value : ((listDelete m list node).1 a).value = (m a).value := by
  simp only [listDelete]
  split_ifs <;> simp

theorem listDelete_next (ha : a ≠ node) : ((listDelete m list node).1 a).next =
    if a = (m node).prev ∧ (m node).prev ≠ 0 then (m node).next else (m a).next := by
  have h : ((listDelete m list node).1 a).next =
      ((if (m node).prev ≠ 0 then m.setNext (m node).prev (m node).next else m) a).next := by
    simp only [listDelete]
    rw [ListMem.next_setNext, if_neg ha, ListMem.next_setPrev]
    split_ifs <;> simp only [ListMem.next_setPrev]
  rw [h]
  by_cases hp₀ : (m node).prev = 0
  · rw [if_neg (not_not.2 hp₀), if_neg fun h => h.2 hp₀]
  · rw [if_pos hp₀, ListMem.next_setNext]
    simp only [ne_eq, hp₀, not_false_eq_true, and_true]

theorem listDelete_prev (hp : (m node).prev ≠ node) (ha : a ≠ node) :
    ((listDelete m list node).1 a).prev =
      if a = (m node).next ∧ (m node).next ≠ 0 then (m node).prev else (m a).prev := by
  -- the links of the node itself are not changed before they are followed
  obtain ⟨m₁, hm₁⟩ : ∃ m₁, m₁ =
      if (m node).prev ≠ 0 then m.setNext (m node).prev (m node).next else m := ⟨_, rfl⟩
  have hprev : ∀ b, (m₁ b).prev = (m b).prev := fun b => by
    rw [hm₁]
    split_ifs <;> simp only [ListMem.prev_setNext]
  have hnext : (m₁ node).next = (m node).next := by
    rw [hm₁]
    split_ifs
    · rw [ListMem.next_setNext, if_neg hp.symm]
    · rfl
  have h : ((listDelete m list node).1 a).prev =
      ((if (m₁ node).next ≠ 0 then m₁.setPrev (m₁ node).next (m₁ node).prev else m₁) a).prev := by
    simp only [listDelete, ← hm₁]
    rw [ListMem.prev_setNext, ListMem.prev_setPrev, if_neg ha]
  rw [h, hnext, hprev]
  by_cases hn₀ : (m node).next = 0
  · rw [if_neg (not_not.2 hn₀), if_neg fun h => h.2 hn₀, hprev]
  · rw [if_pos hn₀, ListMem.prev_setPrev, hprev]
    simp only [ne_eq, hn₀, not_false_eq_true, and_true]

end

/-- `list_delete` of a node whose back link is not lost. -/
theorem IsList.delete (h : IsList m loose list (pre ++ (node, w) :: post))
    (hprev : (m node).prev = (pre.map Prod.fst).getLastD 0) :
    IsList (listDelete m list node).1 loose (listDelete m list node).2 (pre ++ post) ∧
    OnlyChanges m (listDelete m list node).1 ((pre ++ (node, w) :: post).map Prod.fst) := by
  have hns : (pre ++ (node, w) :: post).map Prod.fst =
      pre.map Prod.fst ++ node :: post.map Prod.fst := by
    rw [List.map_append, List.map_cons]
  have hlist := h.links
  rw [hns] at hlist
  obtain ⟨hpre, hpost, hnode₀⟩ := hlist.notMem
  -- the nodes before and after
  have hp : (m node).prev = 0 ∨ (m node).prev ∈ pre.map Prod.fst :=
    (getLastD_cases hprev).imp And.right And.right
  have hq : (m node).next = 0 ∨ (m node).next ∈ post.map Prod.fst :=
    hlist.next_cases.imp And.right And.right
  have hpn : (m node).prev ≠ node := by
    intro heq
    rw [heq] at hp
    exact hp.elim hnode₀ hpre
  have hqn : (m node).next ≠ node := by
    intro heq
    rw [heq] at hq
    exact hq.elim hnode₀ hpost
  have hne : ∀ a ∈ pre.map Prod.fst ++ post.map Prod.fst, a ≠ node := by
    rintro a ha rfl
    rcases List.mem_append.1 ha with ha | ha
    · exact hpre ha
    · exact hpost ha
  have hlinks : DList (fun a => ((listDelete m list node).1 a).next)
      (fun a => ((listDelete m list node).1 a).prev) loose _ _ _ :=
    hlist.erase hprev (fun a ha hap => by rw [listDelete_next (hne a ha), if_neg fun h => hap h.1])
      (fun a ha haq => by rw [listDelete_prev hpn (hne a ha), if_neg fun h => haq h.1])
      (fun hp₀ => by rw [listDelete_next hpn, if_pos ⟨rfl, hp₀⟩])
      (fun hq₀ => by rw [listDelete_prev hpn hqn, if_pos ⟨rfl, hq₀⟩])
  refine ⟨⟨?_, fun x hx => ?_, ?_⟩, fun a ha => ?_⟩
  · rw [listDelete_list, List.map_append]
    exact hlinks
  · rw [listDelete_value]
    refine h.value x ?_
    rcases List.mem_append.1 hx with hx | hx
    · exact List.mem_append_left _ hx
    · exact List.mem_append_right _ (List.mem_cons_of_mem _ hx)
  · rw [listDelete_list]
    have hlen := h.length
    rw [List.length_append, List.length_cons] at hlen
    rw [List.length_append]
    simp only [hlen, sub32]
    omega
  · rw [hns] at ha
    have han : a ≠ node := by
      rintro rfl
      exact ha (List.mem_append_right _ List.mem_cons_self)
    refine ListNode.ext ?_ ?_ listDelete_value
    · rw [listDelete_next han, if_neg]
      rintro ⟨rfl, hp₀⟩
      exact ha (List.mem_append_left _ (hp.resolve_left hp₀))
    · rw [listDelete_prev hpn han, if_neg]
      rintro ⟨rfl, hq₀⟩
      exact ha (List.mem_append_right _ (List.mem_cons_of_mem _ (hq.resolve_left hq₀)))

/-! ### Merging -/

/-- `list_merge` of two lists, which may lose the back link of the first node of the second
    one. -/
theorem IsList.merge (h : IsList m loose list xs) (h' : IsList m loose list' ys)
    (hdisj : List.Disjoint (xs.map Prod.fst) (ys.map Prod.fst)) (hloose : loose) :
    IsList (listMerge m list list').1 loose (listMerge m list list').2 (xs ++ ys) ∧
    OnlyChanges m (listMerge m list list').1 (xs.map Prod.fst) := by
  have htail := h.links.tail_eq_zero
  have htail' := h'.links.tail_eq_zero
  -- the only store is to the link behind the last node of the first list
  have hmem : ∀ a, ((listMerge m list list').1 a).value = (m a).value ∧
      ((listMerge m list list').1 a).prev = (m a).prev ∧
      ((listMerge m list list').1 a).next =
        if a = list.tail ∧ list.tail ≠ 0 then list'.head else (m a).next := fun a => by
    by_cases ht : list.tail = 0
    · simp [listMerge, ht]
    · simp [listMerge, ht, ListMem.next_setNext]
  have hlist : (listMerge m list list').2 =
      ⟨if xs.map Prod.fst = [] then list'.head else list.head,
        if ys.map Prod.fst = [] then list.tail else list'.tail,
        add32 list.length list'.length⟩ := by
    by_cases ht : list.tail = 0 <;> by_cases ht' : list'.tail = 0 <;>
      simp [listMerge, ht, ht', ← htail, ← htail']
  have hlinks : DList (fun a => ((listMerge m list list').1 a).next)
      (fun a => ((listMerge m list list').1 a).prev) loose _ _ _ :=
    h.links.append h'.links hdisj hloose
      (fun a _ hat => by rw [(hmem a).2.2, if_neg fun h => hat h.1]) (fun a _ => (hmem a).2.1)
      (fun hne => by rw [(hmem _).2.2, if_pos ⟨rfl, fun ht => hne (htail.1 ht)⟩])
  refine ⟨⟨?_, fun x hx => ?_, ?_⟩, fun a ha => ?_⟩
  · rw [hlist, List.map_append]
    exact hlinks
  · rw [(hmem x.1).1]
    rcases List.mem_append.1 hx with hx | hx
    · exact h.value x hx
    · exact h'.value x hx
  · rw [hlist, List.length_append]
    simp only [h.length, h'.length, add32]
    omega
  · refine ListNode.ext ?_ (hmem a).2.1 (hmem a).1
    rw [(hmem a).2.2, if_neg]
    rintro ⟨rfl, ht⟩
    exact ha (h.links.tail_mem fun hnil => ht (htail.2 hnil))

/-! ### Searching -/

section

variable [DecidableEq α] {fuel : ℕ}

/-- A walk along the links finds the first node with the value. -/
theorem findLoop_eq {p q : ℕ} (h : DSeg (fun a => (m a).next) (fun a => (m a).prev) loose p
    (xs.map Prod.fst) 0) (hv : ∀ x ∈ xs, (m x.1).value = x.2) (h₀ : 0 ∉ xs.map Prod.fst)
    (hq : q = (xs.map Prod.fst).headD 0) (hfuel : xs.length < fuel) :
    findLoop m v fuel q = some (((xs.find? fun x => x.2 = v).map Prod.fst).getD 0) := by
  induction xs generalizing p q fuel with
  | nil =>
    obtain ⟨fuel, rfl⟩ := Nat.exists_eq_succ_of_ne_zero (by omega : fuel ≠ 0)
    rw [hq]
    rfl
  | cons x xs ih =>
    obtain ⟨fuel, rfl⟩ := Nat.exists_eq_succ_of_ne_zero (by omega : fuel ≠ 0)
    obtain ⟨-, hnext, hrest⟩ := h
    have hq : q = x.1 := hq
    have hx₀ : x.1 ≠ 0 := fun hx => h₀ (hx ▸ List.mem_cons_self)
    rw [findLoop, hq, if_neg hx₀, hv x List.mem_cons_self]
    by_cases hxv : x.2 = v
    · rw [if_pos hxv, List.find?_cons_of_pos (by simpa using hxv)]
      rfl
    · rw [if_neg hxv, List.find?_cons_of_neg (by simpa using hxv)]
      exact ih hrest (fun y hy => hv y (List.mem_cons_of_mem x hy))
        (fun h => h₀ (List.mem_cons_of_mem _ h)) hnext (by simpa using hfuel)

theorem IsList.find (h : IsList m loose list xs) (hlen : xs.length < nodeFuel) (v : α) :
    listFind m list v = some (((xs.find? fun x => x.2 = v).map Prod.fst).getD 0) :=
  findLoop_eq h.links.seg h.value h.links.ne_zero h.links.head_eq hlen

/-- Counting along gives the index of the first node with the value. -/
theorem indexLoop_eq {p q : ℕ} (h : DSeg (fun a => (m a).next) (fun a => (m a).prev) loose p
    (xs.map Prod.fst) 0) (hv : ∀ x ∈ xs, (m x.1).value = x.2) (h₀ : 0 ∉ xs.map Prod.fst)
    (hq : q = (xs.map Prod.fst).headD 0) (hfuel : xs.length < fuel) (i : ℕ) :
    indexLoop m v fuel q (BitVec.ofNat 32 i) =
      some (((xs.findIdx? fun x => x.2 = v).map fun k => BitVec.ofNat 32 (i + k)).getD (-1)) := by
  induction xs generalizing p q fuel i with
  | nil =>
    obtain ⟨fuel, rfl⟩ := Nat.exists_eq_succ_of_ne_zero (by omega : fuel ≠ 0)
    rw [hq]
    rfl
  | cons x xs ih =>
    obtain ⟨fuel, rfl⟩ := Nat.exists_eq_succ_of_ne_zero (by omega : fuel ≠ 0)
    obtain ⟨-, hnext, hrest⟩ := h
    have hq : q = x.1 := hq
    have hx₀ : x.1 ≠ 0 := fun hx => h₀ (hx ▸ List.mem_cons_self)
    rw [indexLoop, hq, if_neg hx₀, hv x List.mem_cons_self, List.findIdx?_cons]
    by_cases hxv : x.2 = v
    · rw [if_pos hxv, if_pos (by simpa using hxv)]
      rfl
    · have hsucc : BitVec.ofNat 32 i + 1 = BitVec.ofNat 32 (i + 1) := (BitVec.ofNat_add i 1).symm
      have hfun : (fun k => BitVec.ofNat 32 (i + 1 + k)) =
          (fun k => BitVec.ofNat 32 (i + k)) ∘ fun k => k + 1 :=
        funext fun k => congrArg (BitVec.ofNat 32) (Nat.add_right_comm i 1 k)
      rw [if_neg hxv, if_neg (by simpa using hxv), hsucc,
        ih hrest (fun y hy => hv y (List.mem_cons_of_mem x hy))
        (fun h => h₀ (List.mem_cons_of_mem _ h)) hnext (by simpa using hfuel), Option.map_map, hfun]

theorem IsList.indexOf (h : IsList m loose list xs) (hlen : xs.length < nodeFuel) (v : α) :
    listIndexOf m list v =
      some (((xs.findIdx? fun x => x.2 = v).map (BitVec.ofNat 32)).getD (-1)) := by
  have hindex := indexLoop_eq (v := v) h.links.seg h.value h.links.ne_zero h.links.head_eq hlen 0
  simp only [Nat.zero_add] at hindex
  exact hindex

end

end Beryllium
