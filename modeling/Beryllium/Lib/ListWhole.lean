import Beryllium.Lib.ListSeq

/-!
# Removing by index, merging and copying

The functions of `kernel/lib/list.c` that go through a whole list: `list_remove`, `list_merge` and
`list_copy`. Each of them misses a case.

* `list_remove` lets the index pass that is the length, and then deletes the null pointer
  (`list_remove_iff`);
* `list_merge` links the second list to the end of the first one, but not back
  (`list_merge_iff`);
* `list_copy` never goes on to the next node (`list_copy_iff`).
-/

namespace Beryllium

open Machine

variable {α : Type*}

/-- The loop of `list_remove`, with `k` rounds to go. The null pointer has no link. -/
def removeLoop (m : ListMem α) : ℕ → ℕ → Option ℕ
  | 0, n => some n
  | k + 1, n => if n = 0 then none else removeLoop m k (m n).next

/-- `list_remove`. `list_delete` reads the links of the node, so that it cannot be null. -/
def listRemove (m : ListMem α) (list : ListT) (index : ℕ) : Option (ListMem α × ListT) :=
  if index > list.length then some (m, list)
  else (removeLoop m index list.head).bind fun n =>
    if n = 0 then none else some (listDelete m list n)

/-- The loop of `list_copy`: `node` is the same in every round. The node that is inserted in round
    `i` is `malloc i`. -/
def copyLoop (malloc : ℕ → ℕ) (node : ℕ) : ℕ → ℕ → ListMem α → ListT → Option (ListMem α × ListT)
  | 0, _, _, _ => none
  | fuel + 1, i, m, out =>
    if node = 0 then some (m, out)
    else
      let r := listInsert m out (malloc i) (m node).value
      copyLoop malloc node fuel (i + 1) r.1 r.2

/-- `list_copy`, limited to a number of rounds. -/
def listCopy (malloc : ℕ → ℕ) (m : ListMem α) (original : ListT) (fuel : ℕ) :
    Option (ListMem α × ListT) := copyLoop malloc original.head fuel 0 m listCreate

variable {m : ListMem α} {list target source original : ListT} {xs ys : List (ℕ × α)}
  {ns : List ℕ} {malloc : ℕ → ℕ} {node p k i : ℕ}

/-! ## Removing by index -/

/-- `list_remove` removes the node with the index, or changes nothing if there is none. -/
def RemovesIndex (m : ListMem α) (list : ListT) (xs : List (ℕ × α)) (index : ℕ) : Prop :=
  ∃ m' list', listRemove m list index = some (m', list') ∧
    (index < xs.length → ListInv ⟨m', list'⟩ (xs.eraseIdx index) ∧
      OnlyChanges m m' (xs.map Prod.fst)) ∧
    (xs.length ≤ index → m' = m ∧ list' = list)

/-- The walk from the first node ends at the null pointer, behind the last one. -/
theorem removeLoop_eq (h : Visits (fun a => (m a).next) p ns) (hk : k ≤ ns.length) :
    removeLoop m k p = some ((ns.drop k).headD 0) := by
  induction k generalizing p ns with
  | zero =>
    cases ns with
    | nil => exact congrArg some h
    | cons a ns => exact congrArg some h.1
  | succ k ih =>
    cases ns with
    | nil => exact absurd hk (Nat.not_succ_le_zero k)
    | cons a ns =>
      obtain ⟨rfl, h₀, hrest⟩ := h
      rw [removeLoop, if_neg h₀, ih hrest (Nat.le_of_succ_le_succ hk)]
      rfl

theorem ListInv.length_eq (h : ListInv ⟨m, list⟩ xs) : list.length = xs.length := by
  have hlt := h.length_lt
  rw [h.list.length, Nat.mod_eq_of_lt (by omega)]

/-- An index below the length is that of a node, which is deleted. -/
theorem listRemove_lt (h : ListInv ⟨m, list⟩ xs) (hi : i < xs.length) :
    listRemove m list i = some (listDelete m list xs[i].1) := by
  have hdrop : (xs.map Prod.fst).drop i = xs[i].1 :: (xs.map Prod.fst).drop (i + 1) := by
    rw [← List.map_drop, List.drop_eq_getElem_cons hi, List.map_cons, List.map_drop]
  have hwalk : removeLoop m i list.head = some xs[i].1 := by
    rw [removeLoop_eq h.list.links.visits_next (by rw [List.length_map]; exact hi.le), hdrop]
    rfl
  have h₀ : xs[i].1 ≠ 0 := fun h₀ => h.list.links.ne_zero
    (h₀ ▸ List.mem_map_of_mem (List.getElem_mem hi))
  have hlen := h.length_eq
  rw [listRemove, if_neg (by omega), hwalk, Option.bind_some, if_neg h₀]

/-- At the length, the node is null. -/
theorem listRemove_length (h : ListInv ⟨m, list⟩ xs) : listRemove m list xs.length = none := by
  have hlen : (xs.map Prod.fst).length = xs.length := List.length_map ..
  have hwalk : removeLoop m xs.length list.head = some 0 := by
    rw [removeLoop_eq h.list.links.visits_next hlen.ge, ← hlen, List.drop_length]
    rfl
  have hlist := h.length_eq
  rw [listRemove, if_neg (by omega), hwalk, Option.bind_some, if_pos rfl]

/-- Deleting the node with the index erases it. -/
theorem listDelete_getElem (h : ListInv ⟨m, list⟩ xs) (hi : i < xs.length) :
    ListInv ⟨(listDelete m list xs[i].1).1, (listDelete m list xs[i].1).2⟩ (xs.eraseIdx i) ∧
      OnlyChanges m (listDelete m list xs[i].1).1 (xs.map Prod.fst) := by
  obtain ⟨⟨node, w⟩, hx⟩ : ∃ x, xs[i] = x := ⟨_, rfl⟩
  have hsplit : xs = xs.take i ++ (node, w) :: xs.drop (i + 1) := by
    rw [← hx, ← List.drop_eq_getElem_cons hi, List.take_append_drop]
  rw [hx, List.eraseIdx_eq_take_drop_succ]
  generalize xs.take i = pre, xs.drop (i + 1) = post at hsplit
  subst hsplit
  have hlinks := h.list.links
  rw [List.map_append, List.map_cons] at hlinks
  exact ⟨h.delete, (h.list.delete (hlinks.prev_eq.resolve_right fun hl => hl.1)).2⟩

/-- `list_remove` does what it is meant to do if and only if the index is not the length. -/
theorem list_remove_iff (h : ListInv ⟨m, list⟩ xs) (index : ℕ) :
    RemovesIndex m list xs index ↔ index ≠ xs.length := by
  constructor
  · rintro ⟨m', list', hrun, -⟩ rfl
    rw [listRemove_length h] at hrun
    cases hrun
  · intro hne
    rcases Nat.lt_or_gt_of_ne hne with hlt | hgt
    · obtain ⟨hlist, honly⟩ := listDelete_getElem h hlt
      exact ⟨_, _, listRemove_lt h hlt, fun _ => ⟨hlist, honly⟩, fun hle => absurd hlt hle.not_gt⟩
    · have hlen := h.length_eq
      refine ⟨m, list, ?_, fun hlt => absurd hlt hgt.le.not_gt, fun _ => ⟨rfl, rfl⟩⟩
      rw [listRemove, if_pos (by omega)]

/-! ## Merging -/

/-- `list_merge` makes one list of two, from which any node can be deleted. -/
def MergesLists (m : ListMem α) (target source : ListT) (xs ys : List (ℕ × α)) : Prop :=
  ∃ m' list', listMerge m target source = (m', list') ∧ ListInv ⟨m', list'⟩ (xs ++ ys) ∧
    ∀ node ∈ (xs ++ ys).map Prod.fst,
      ListInv (listStep ⟨m', list'⟩ (.delete node)) ((xs ++ ys).eraseP fun x => x.1 = node)

/-- Nothing is merged into an empty list but the second one itself. -/
theorem listMerge_nil (h : ListInv ⟨m, target⟩ []) (h' : ListInv ⟨m, source⟩ ys) :
    listMerge m target source = (m, source) := by
  have ht : target.tail = 0 := h.list.links.tail_eq
  have hlen : add32 target.length source.length = source.length := by
    have hlt := h'.length_lt
    rw [h.length_eq, h'.length_eq, List.length_nil, add32_eq (by omega), Nat.zero_add]
  by_cases hs : source.tail = 0
  · simp only [listMerge, ht, hs, hlen, ne_eq, not_true_eq_false, if_false]
    rw [← hs]
  · simp only [listMerge, ht, hs, hlen, ne_eq, not_true_eq_false, not_false_eq_true,
      if_false, if_true]

/-- An empty list merged into another one leaves it as it is. -/
theorem listMerge_of_nil (h : ListInv ⟨m, target⟩ xs) (h' : ListInv ⟨m, source⟩ [])
    (hne : xs ≠ []) : listMerge m target source = (m, target) := by
  have ht : target.tail ≠ 0 := fun ht => hne (map_fst_eq_nil.1 (h.list.links.tail_eq_zero.1 ht))
  have hs : source.head = 0 ∧ source.tail = 0 := ⟨h'.list.links.head_eq, h'.list.links.tail_eq⟩
  have hlen : add32 target.length source.length = target.length := by
    have hlt := h.length_lt
    rw [h.length_eq, h'.length_eq, List.length_nil, add32_eq (by omega), Nat.add_zero]
  -- the last node has no link yet
  have hlast : m.setNext target.tail 0 = m := by
    obtain ⟨pre, w, rfl⟩ := h.tail_entry ht
    have hlinks := h.list.links
    rw [List.map_append] at hlinks
    have hnext : (m target.tail).next = 0 := hlinks.next_eq
    rw [ListMem.setNext, ← hnext]
    exact Function.update_eq_self ..
  simp only [listMerge, ht, hs, hlen, hlast, ne_eq, not_true_eq_false, not_false_eq_true,
    if_false, if_true]

/-- The back links are left as they are. -/
theorem listMerge_prev (a : ℕ) : ((listMerge m target source).1 a).prev = (m a).prev := by
  simp only [listMerge]
  split_ifs
  · exact ListMem.prev_setNext
  · rfl

/-- In the result of `list_merge`, the first node of the second list has no back link. -/
theorem not_listInv_merge (h' : ListInv ⟨m, source⟩ ys) (hxs : xs ≠ []) (hys : ys ≠ []) :
    ¬ListInv ⟨(listMerge m target source).1, (listMerge m target source).2⟩ (xs ++ ys) := by
  intro h
  obtain ⟨y, ys, rfl⟩ := List.exists_cons_of_ne_nil hys
  have hlinks := h.list.links
  rw [List.map_append, List.map_cons] at hlinks
  have hlast : (xs.map Prod.fst).getLastD 0 = 0 := by
    rw [← hlinks.prev_eq.resolve_right fun hl => hl.1, listMerge_prev]
    exact h'.list.links.seg.1.resolve_right fun hl => hl.1
  -- but the node before it is not null
  have hmem : (xs.map Prod.fst).getLastD 0 ∈ xs.map Prod.fst :=
    getLastD_mem (mt List.map_eq_nil_iff.1 hxs)
  exact hlinks.ne_zero (List.mem_append_left _ (hlast ▸ hmem))

/-- `list_merge` of two lists whose nodes do not overlap makes one list of them if and only if one
    of them is empty. -/
theorem list_merge_iff (h : ListInv ⟨m, target⟩ xs) (h' : ListInv ⟨m, source⟩ ys)
    (hdisj : ∀ a ∈ xs.map Prod.fst, ∀ b ∈ ys.map Prod.fst, a + 12 ≤ b ∨ b + 12 ≤ a) :
    MergesLists m target source xs ys ↔ xs = [] ∨ ys = [] := by
  constructor
  · rintro ⟨m', list', hmerge, hlist, -⟩
    by_contra hne
    rw [not_or] at hne
    have hbad : ¬ListInv ⟨(listMerge m target source).1, (listMerge m target source).2⟩
        (xs ++ ys) :=
      not_listInv_merge h' hne.1 hne.2
    rw [hmerge] at hbad
    exact hbad hlist
  · intro hnil
    obtain ⟨m', list', hmerge, hlist⟩ : ∃ m' list', listMerge m target source = (m', list') ∧
        ListInv ⟨m', list'⟩ (xs ++ ys) := by
      by_cases hxs : xs = []
      · subst hxs
        exact ⟨m, source, listMerge_nil h h', h'⟩
      · obtain rfl := hnil.resolve_left hxs
        rw [List.append_nil]
        exact ⟨m, target, listMerge_of_nil h h' hxs, h⟩
    refine ⟨m', list', hmerge, hlist, fun node hnode => ?_⟩
    obtain ⟨pre, w, post, heq⟩ := exists_entry hnode
    rw [heq] at hlist ⊢
    rw [eraseP_eq hlist.list.not_mem_pre]
    exact hlist.delete

/-! ## Copying -/

/-- `list_copy` returns, after some number of rounds, a list of new nodes with the same values, and
    leaves the original as it is. -/
def CopiesList (malloc : ℕ → ℕ) (m : ListMem α) (original : ListT) (xs : List (ℕ × α)) : Prop :=
  ∃ fuel m' out ys, listCopy malloc m original fuel = some (m', out) ∧ ListInv ⟨m', out⟩ ys ∧
    ys.map Prod.snd = xs.map Prod.snd ∧ List.Disjoint (ys.map Prod.fst) (xs.map Prod.fst) ∧
    ∀ a ∈ xs.map Prod.fst, m' a = m a

/-- From a node on, the loop never ends. -/
theorem copyLoop_eq_none (hnode : node ≠ 0) (fuel i : ℕ) (m : ListMem α) (out : ListT) :
    copyLoop malloc node fuel i m out = none := by
  induction fuel generalizing i m out with
  | zero => rfl
  | succ fuel ih =>
    rw [copyLoop, if_neg hnode]
    exact ih ..

/-- `list_copy` copies a list if and only if it is empty. -/
theorem list_copy_iff (h : ListInv ⟨m, original⟩ xs) (malloc : ℕ → ℕ) :
    CopiesList malloc m original xs ↔ xs = [] := by
  constructor
  · rintro ⟨fuel, m', out, ys, hrun, -⟩
    by_contra hne
    have hhead : original.head ≠ 0 :=
      fun h₀ => hne (map_fst_eq_nil.1 (h.list.links.head_eq_zero.1 h₀))
    rw [listCopy, copyLoop_eq_none hhead] at hrun
    cases hrun
  · rintro rfl
    have hhead : original.head = 0 := h.list.links.head_eq
    refine ⟨1, m, listCreate, [], ?_, ⟨isList_create, nodesApart_nil⟩, rfl,
      fun _ ha => absurd ha List.not_mem_nil, fun _ _ => rfl⟩
    rw [listCopy, copyLoop, if_pos hhead]

/-! ## A list of two nodes -/

/-- The nodes 16 and 32, inserted into a new list. -/
def twoNodes : ListState ℕ :=
  listStep (listStep ⟨fun _ => ⟨0, 0, 0⟩, listCreate⟩ (.insert 16 7)) (.insert 32 8)

theorem listInv_twoNodes : ListInv twoNodes [(16, 7), (32, 8)] := by
  have h₀ : ListInv (α := ℕ) ⟨fun _ => ⟨0, 0, 0⟩, listCreate⟩ [] := .of_init rfl
  have h₁ : ListInv _ [(16, 7)] := h₀.insert (h₀.freshNode.2 (by simp))
  exact h₁.insert (h₁.freshNode.2 (by simp))

theorem listInv_empty : ListInv ⟨twoNodes.mem, listCreate⟩ [] := ⟨isList_create, nodesApart_nil⟩

/-- The second node is removed. -/
theorem list_remove_second : RemovesIndex twoNodes.mem twoNodes.list [(16, 7), (32, 8)] 1 :=
  (list_remove_iff listInv_twoNodes 1).2 (by decide)

/-- The index 2 is not that of a node: the null pointer is deleted. -/
theorem list_remove_null : ¬RemovesIndex twoNodes.mem twoNodes.list [(16, 7), (32, 8)] 2 := by
  rintro ⟨m', list', hrun, -⟩
  have hnone : listRemove twoNodes.mem twoNodes.list 2 = none := listRemove_length listInv_twoNodes
  rw [hnone] at hrun
  cases hrun

/-- An empty list is merged into it. -/
theorem list_merge_empty :
    MergesLists twoNodes.mem twoNodes.list listCreate [(16, 7), (32, 8)] [] :=
  (list_merge_iff listInv_twoNodes listInv_empty fun _ _ _ hb => absurd hb List.not_mem_nil).2
    (.inr rfl)

/-- A list of one node, the one at 48, is linked to its end, but not back. -/
theorem list_merge_one : ∃ (s : ListState ℕ) (source : ListT), ListInv s [(16, 7), (32, 8)] ∧
    ListInv ⟨s.mem, source⟩ [(48, 9)] ∧ ¬MergesLists s.mem s.list source [(16, 7), (32, 8)]
    [(48, 9)] := by
  have hnew : ListInv (listStep ⟨twoNodes.mem, listCreate⟩ (.insert 48 9)) [(48, 9)] :=
    listInv_empty.insert (listInv_empty.freshNode.2 (by simp))
  have hnil : IsList twoNodes.mem False listCreate [] := isList_create
  -- inserting the node leaves the other list as it is
  have hkeep : ListInv ⟨(listInsert twoNodes.mem listCreate 48 9).1, twoNodes.list⟩
      [(16, 7), (32, 8)] := by
    refine ⟨listInv_twoNodes.list.congr fun a ha => ?_, listInv_twoNodes.nodes⟩
    refine (hnil.insert List.not_mem_nil (by decide)).2 a ?_
    rw [List.map_nil, List.mem_singleton]
    rintro rfl
    revert ha
    decide
  refine ⟨_, (listInsert twoNodes.mem listCreate 48 9).2, hkeep, hnew, ?_⟩
  rintro ⟨m', list', hmerge, hlist, -⟩
  have hbad : ¬ListInv ⟨(listMerge (listInsert twoNodes.mem listCreate 48 9).1 twoNodes.list
      (listInsert twoNodes.mem listCreate 48 9).2).1, _⟩ ([(16, 7), (32, 8)] ++ _) :=
    not_listInv_merge hnew (by decide) (by decide)
  rw [hmerge] at hbad
  exact hbad hlist

/-- The answers of a `malloc` that hands out one node after the other. -/
def mallocFrom (base i : ℕ) : ℕ := base + 12 * i

/-- The empty list is copied. -/
theorem list_copy_empty : CopiesList (mallocFrom 48) twoNodes.mem listCreate [] :=
  (list_copy_iff listInv_empty (mallocFrom 48)).2 rfl

/-- A list of two nodes is not. -/
theorem list_copy_two :
    ¬CopiesList (mallocFrom 48) twoNodes.mem twoNodes.list [(16, 7), (32, 8)] := by
  rintro ⟨fuel, m', out, ys, hrun, -⟩
  have hhead : twoNodes.list.head ≠ 0 := by decide
  rw [listCopy, copyLoop_eq_none hhead] at hrun
  cases hrun

end Beryllium
