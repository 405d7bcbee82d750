import Mathlib.Data.List.Basic
import Mathlib.Data.List.Nodup
import Mathlib.Data.List.Perm.Subperm
import Mathlib.Data.Nat.Notation
import Mathlib.Order.Nat
import Mathlib.Tactic.Common

/-!
# Doubly linked lists

The nodes of a doubly linked list are addresses, 0 the null pointer, with two links at each,
`next` and `prev`. `DList next prev loose head tail ns`: from `head`, the links lead through
the nodes `ns` to null, and back from `tail`. A *loose* list may have lost back links: that of a
node is to the node before it, or null.

Links are changed at the ends of segments (`DSeg`): a segment only depends on the links of its
nodes (`DSeg.congr`), and the links out of its two ends can be changed
(`DSeg.relink_last`, `DSeg.relink_head`). From these come the operations on lists:

* `DList.push`, `DList.push_front`, `DList.insert`: a new node at the end, at the front, or
  after a node;
* `DList.erase`: a node is taken out, if its back link is not lost;
* `DList.append`: a second list is linked to the end, which may lose the back link of its
  first node.

A walk along links passes the nodes `ns` and ends at null (`Visits`). A list that is not loose is
visited from both ends (`DList.visits_next`, `DList.visits_prev`).
-/

namespace Machine

variable {next prev next' prev' : ℕ → ℕ} {loose : Prop} {p q p' q' a b x head tail : ℕ}
  {ns xs ys pre post : List ℕ}

theorem getLastD_append : (xs ++ ys).getLastD a = ys.getLastD (xs.getLastD a) := by
  induction xs generalizing a with
  | nil => rfl
  | cons x xs ih => rw [List.cons_append, List.getLastD_cons, ih, List.getLastD_cons]

theorem headD_append : (xs ++ ys).headD a = xs.headD (ys.headD a) := by
  cases xs <;> rfl

theorem getLastD_mem (hne : ns ≠ []) : ns.getLastD a ∈ ns := by
  cases ns with
  | nil => exact absurd rfl hne
  | cons b ns =>
    rw [List.getLastD_cons]
    exact List.getLastD_mem_cons

/-- The last node, if there is one. -/
theorem getLastD_cases (hp : p = pre.getLastD 0) : pre = [] ∧ p = 0 ∨ pre ≠ [] ∧ p ∈ pre := by
  rw [hp]
  by_cases hne : pre = []
  · subst hne
    exact .inl ⟨rfl, rfl⟩
  · exact .inr ⟨hne, getLastD_mem hne⟩

/-- Distinct numbers below `N` are at most `N`. -/
theorem length_le_of_nodup {N : ℕ} (hnodup : ns.Nodup) (hlt : ∀ a ∈ ns, a < N) : ns.length ≤ N := by
  have hsub : ns ⊆ List.range N := fun a ha => List.mem_range.2 (hlt a ha)
  have hle := (hnodup.subperm hsub).length_le
  rwa [List.length_range] at hle

/-! ## Segments -/

/-- The nodes `ns` are linked one after the other, the first one back to `p` and the last one
    on to `q`. -/
def DSeg (next prev : ℕ → ℕ) (loose : Prop) (p : ℕ) : List ℕ → ℕ → Prop
  | [], _ => True
  | a :: ns, q => (prev a = p ∨ loose ∧ prev a = 0) ∧ next a = ns.headD q ∧
      DSeg next prev loose a ns q

theorem dseg_append : DSeg next prev loose p (xs ++ ys) q ↔
    DSeg next prev loose p xs (ys.headD q) ∧ DSeg next prev loose (xs.getLastD p) ys q := by
  induction xs generalizing p with
  | nil => exact (and_iff_right trivial).symm
  | cons x xs ih =>
    rw [List.cons_append, DSeg, DSeg, ih, List.getLastD_cons, headD_append, and_assoc, and_assoc]

/-- A segment only depends on the links of its nodes. -/
theorem DSeg.congr (h : DSeg next prev loose p ns q) (hn : ∀ a ∈ ns, next' a = next a)
    (hp : ∀ a ∈ ns, prev' a = prev a) : DSeg next' prev' loose p ns q := by
  induction ns generalizing p with
  | nil => trivial
  | cons b ns ih =>
    obtain ⟨h₁, h₂, h₃⟩ := h
    refine ⟨?_, (hn b List.mem_cons_self).trans h₂, ih h₃
      (fun a ha => hn a (List.mem_cons_of_mem b ha)) fun a ha => hp a (List.mem_cons_of_mem b ha)⟩
    rw [hp b List.mem_cons_self]
    exact h₁

/-- Changing the link out of the last node. -/
theorem DSeg.relink_last (h : DSeg next prev loose p ns q) (hnodup : ns.Nodup)
    (hn : ∀ a ∈ ns, a ≠ ns.getLastD p → next' a = next a) (hp : ∀ a ∈ ns, prev' a = prev a)
    (hlast : ns ≠ [] → next' (ns.getLastD p) = q') : DSeg next' prev' loose p ns q' := by
  rcases List.eq_nil_or_concat ns with rfl | ⟨xs, b, rfl⟩
  · trivial
  · rw [List.concat_eq_append] at *
    rw [getLastD_append] at hn hlast
    obtain ⟨h₁, h₂, -, -⟩ := dseg_append.1 h
    have hb : b ∉ xs := fun hb =>
      (List.nodup_append.1 hnodup).2.2 b hb b (List.mem_singleton_self b) rfl
    refine dseg_append.2 ⟨h₁.congr (fun a ha => hn a (List.mem_append_left _ ha) ?_)
      fun a ha => hp a (List.mem_append_left _ ha), ?_, hlast (by simp), trivial⟩
    · rintro rfl
      exact hb ha
    · rw [hp b (by simp)]
      exact h₂

/-- Changing the back link of the first node. -/
theorem DSeg.relink_head (h : DSeg next prev loose p ns q) (hnodup : ns.Nodup)
    (hn : ∀ a ∈ ns, next' a = next a) (hp : ∀ a ∈ ns, a ≠ ns.headD q → prev' a = prev a)
    (hhead : ns ≠ [] → prev' (ns.headD q) = p' ∨ loose ∧ prev' (ns.headD q) = 0) :
    DSeg next' prev' loose p' ns q := by
  cases ns with
  | nil => trivial
  | cons b ns =>
    obtain ⟨-, h₂, h₃⟩ := h
    obtain ⟨hb, -⟩ := List.nodup_cons.1 hnodup
    refine ⟨hhead (List.cons_ne_nil b ns), (hn b List.mem_cons_self).trans h₂,
      h₃.congr (fun a ha => hn a (List.mem_cons_of_mem b ha)) fun a ha => ?_⟩
    refine hp a (List.mem_cons_of_mem b ha) ?_
    rintro rfl
    exact hb ha

/-! ## Lists -/

/-- The links lead from `head` through the nodes `ns` to null, and back from `tail`. -/
structure DList (next prev : ℕ → ℕ) (loose : Prop) (head tail : ℕ) (ns : List ℕ) : Prop where
  seg : DSeg next prev loose 0 ns 0
  head_eq : head = ns.headD 0
  tail_eq : tail = ns.getLastD 0
  nodup : ns.Nodup
  ne_zero : 0 ∉ ns

theorem dlist_nil : DList next prev loose 0 0 [] :=
  ⟨trivial, rfl, rfl, List.nodup_nil, List.not_mem_nil⟩

theorem DList.congr (h : DList next prev loose head tail ns) (hn : ∀ a ∈ ns, next' a = next a)
    (hp : ∀ a ∈ ns, prev' a = prev a) : DList next' prev' loose head tail ns :=
  ⟨h.seg.congr hn hp, h.head_eq, h.tail_eq, h.nodup, h.ne_zero⟩

theorem DList.tail_eq_zero (h : DList next prev loose head tail ns) : tail = 0 ↔ ns = [] := by
  constructor
  · intro ht
    rcases List.eq_nil_or_concat ns with rfl | ⟨xs, b, rfl⟩
    · rfl
    · have hb := h.tail_eq
      rw [List.concat_eq_append, List.getLastD_concat, ht] at hb
      refine absurd ?_ h.ne_zero
      rw [List.concat_eq_append, hb]
      exact List.mem_append_right _ (List.mem_singleton_self b)
  · rintro rfl
    exact h.tail_eq

theorem DList.head_eq_zero (h : DList next prev loose head tail ns) : head = 0 ↔ ns = [] := by
  constructor
  · intro hh
    cases ns with
    | nil => rfl
    | cons a ns =>
      have ha : head = a := h.head_eq
      exact absurd (hh ▸ ha ▸ List.mem_cons_self) h.ne_zero
  · rintro rfl
    exact h.head_eq

theorem DList.tail_mem (h : DList next prev loose head tail ns) (hne : ns ≠ []) : tail ∈ ns := by
  rw [h.tail_eq]
  exact getLastD_mem hne

theorem DList.head_mem (h : DList next prev loose head tail ns) (hne : ns ≠ []) : head ∈ ns := by
  cases ns with
  | nil => exact absurd rfl hne
  | cons a ns => exact h.head_eq ▸ List.mem_cons_self

theorem DList.next_eq (h : DList next prev loose head tail (pre ++ b :: post)) :
    next b = post.headD 0 := (dseg_append.1 h.seg).2.2.1

/-- The back link of a node is to the one before it, unless it is lost. -/
theorem DList.prev_eq (h : DList next prev loose head tail (pre ++ b :: post)) :
    prev b = pre.getLastD 0 ∨ loose ∧ prev b = 0 := (dseg_append.1 h.seg).2.1

theorem DList.next_mem (h : DList next prev loose head tail (pre ++ b :: post)) (hne : post ≠ []) :
    next b ∈ post := by
  rw [h.next_eq]
  cases post with
  | nil => exact absurd rfl hne
  | cons c post => exact List.mem_cons_self

theorem DList.next_cases (h : DList next prev loose head tail (pre ++ b :: post)) :
    post = [] ∧ next b = 0 ∨ post ≠ [] ∧ next b ∈ post := by
  by_cases hne : post = []
  · subst hne
    exact .inl ⟨rfl, h.next_eq⟩
  · exact .inr ⟨hne, h.next_mem hne⟩

/-- A node is in the list once, and it is not null. -/
theorem DList.notMem (h : DList next prev loose head tail (pre ++ b :: post)) :
    b ∉ pre ∧ b ∉ post ∧ b ≠ 0 := by
  obtain ⟨-, hb, hdisj⟩ := List.nodup_append.1 h.nodup
  refine ⟨fun hmem => hdisj b hmem b List.mem_cons_self rfl, (List.nodup_cons.1 hb).1, ?_⟩
  rintro rfl
  exact h.ne_zero (List.mem_append_right _ List.mem_cons_self)

/-- The last node is the one with none after it. -/
theorem DList.eq_tail_iff (h : DList next prev loose head tail (pre ++ b :: post)) :
    b = tail ↔ post = [] := by
  obtain ⟨hb, -⟩ := List.nodup_cons.1 (List.nodup_append.1 h.nodup).2.1
  rw [h.tail_eq, getLastD_append, List.getLastD_cons]
  cases post with
  | nil => exact iff_of_true rfl rfl
  | cons c post =>
    refine iff_of_false (fun heq => hb ?_) (List.cons_ne_nil c post)
    rw [heq, List.getLastD_cons]
    exact List.getLastD_mem_cons

/-- The first node is the one with none before it. -/
theorem DList.eq_head_iff (h : DList next prev loose head tail (pre ++ b :: post)) :
    b = head ↔ pre = [] := by
  have hdisj := (List.nodup_append.1 h.nodup).2.2
  rw [h.head_eq, headD_append]
  cases pre with
  | nil => exact iff_of_true rfl rfl
  | cons c pre =>
    exact iff_of_false (fun heq => hdisj c List.mem_cons_self b List.mem_cons_self heq.symm)
      (List.cons_ne_nil c pre)

theorem nodup_append_singleton (hnodup : ns.Nodup) (hx : x ∉ ns) : (ns ++ [x]).Nodup :=
  List.nodup_append_comm.1 (List.nodup_cons.2 ⟨hx, hnodup⟩)

theorem zero_notMem_append (h₀ : 0 ∉ ns) (hx₀ : x ≠ 0) : 0 ∉ ns ++ [x] := by
  rw [List.mem_append, List.mem_singleton]
  rintro (h | h)
  · exact h₀ h
  · exact hx₀ h.symm

/-- A new node at the end. -/
theorem DList.push (h : DList next prev loose head tail ns) (hx : x ∉ ns) (hx₀ : x ≠ 0)
    (hn : ∀ a ∈ ns, a ≠ tail → next' a = next a) (hp : ∀ a ∈ ns, prev' a = prev a)
    (htail : ns ≠ [] → next' tail = x) (hnx : next' x = 0) (hpx : prev' x = tail) :
    DList next' prev' loose (if ns = [] then x else head) x (ns ++ [x]) := by
  refine ⟨dseg_append.2 ⟨h.seg.relink_last h.nodup ?_ hp ?_, ?_, hnx, trivial⟩, ?_, ?_, ?_, ?_⟩
  · rw [← h.tail_eq]
    exact hn
  · rw [← h.tail_eq]
    exact htail
  · rw [← h.tail_eq]
    exact .inl hpx
  · split_ifs with hne
    · rw [hne]
      rfl
    · rw [headD_append, h.head_eq]
      cases ns with
      | nil => exact absurd rfl hne
      | cons a ns => rfl
  · rw [getLastD_append]
    rfl
  · exact nodup_append_singleton h.nodup hx
  · exact zero_notMem_append h.ne_zero hx₀

/-- A new node at the front of a list that is not empty. -/
theorem DList.push_front (h : DList next prev loose head tail ns) (hne : ns ≠ []) (hx : x ∉ ns)
    (hx₀ : x ≠ 0) (hn : ∀ a ∈ ns, next' a = next a) (hp : ∀ a ∈ ns, a ≠ head → prev' a = prev a)
    (hhead : prev' head = x) (hnx : next' x = head) (hpx : prev' x = 0) :
    DList next' prev' loose x tail (x :: ns) := by
  refine ⟨⟨.inl hpx, hnx.trans h.head_eq, h.seg.relink_head h.nodup hn ?_ fun _ => .inl ?_⟩, rfl,
    ?_, List.nodup_cons.2 ⟨hx, h.nodup⟩, ?_⟩
  · rw [← h.head_eq]
    exact hp
  · rw [← h.head_eq]
    exact hhead
  · rw [List.getLastD_cons, h.tail_eq]
    cases ns with
    | nil => exact absurd rfl hne
    | cons a ns => rw [List.getLastD_cons, List.getLastD_cons]
  · rw [List.mem_cons]
    rintro (h₀ | h₀)
    · exact hx₀ h₀.symm
    · exact h.ne_zero h₀

/-- A new node after the node `b`, which is not the last one. -/
theorem DList.insert (h : DList next prev loose head tail (pre ++ b :: post)) (hne : post ≠ [])
    (hx : x ∉ pre ++ b :: post) (hx₀ : x ≠ 0)
    (hn : ∀ a ∈ pre ++ b :: post, a ≠ b → next' a = next a)
    (hp : ∀ a ∈ pre ++ b :: post, a ≠ next b → prev' a = prev a)
    (hnb : next' b = x) (hpc : prev' (next b) = x) (hnx : next' x = next b) (hpx : prev' x = b) :
    DList next' prev' loose head tail (pre ++ b :: x :: post) := by
  obtain ⟨hpre, hb, hnext, hpost⟩ := dseg_append.1 h.seg
  obtain ⟨hnpre, hnb', hdisj⟩ := List.nodup_append.1 h.nodup
  obtain ⟨hbpost, hnpost⟩ := List.nodup_cons.1 hnb'
  have hc : next b ∈ post := h.next_mem hne
  refine ⟨dseg_append.2 ⟨hpre.congr (fun a ha => hn a (by simp [ha]) ?_)
    fun a ha => hp a (by simp [ha]) ?_, ?_, hnb, .inl hpx, hnx.trans hnext,
    hpost.relink_head hnpost (fun a ha => hn a (by simp [ha]) ?_)
      (fun a ha hne => hp a (by simp [ha]) ?_)
    fun _ => .inl ?_⟩, ?_, ?_, ?_, ?_⟩
  · exact hdisj a ha b List.mem_cons_self
  · exact hdisj a ha (next b) (List.mem_cons_of_mem b hc)
  · rw [hp b (by simp) fun heq => hbpost (heq ▸ hc)]
    exact hb
  · rintro rfl
    exact hbpost ha
  · rw [hnext]
    exact hne
  · rw [← hnext]
    exact hpc
  · rw [h.head_eq, headD_append, headD_append]
    rfl
  · -- the last node is after the new one, as `b` was not the last
    rw [h.tail_eq, getLastD_append, getLastD_append, List.getLastD_cons, List.getLastD_cons,
      List.getLastD_cons]
    cases post with
    | nil => exact absurd rfl hne
    | cons c post => rw [List.getLastD_cons, List.getLastD_cons]
  · simp only [List.mem_append, List.mem_cons, not_or] at hx
    refine List.nodup_append.2 ⟨hnpre, List.nodup_cons.2 ⟨?_, List.nodup_cons.2 ⟨hx.2.2, hnpost⟩⟩,
      fun a ha c hc' => ?_⟩
    · rw [List.mem_cons]
      rintro (rfl | hb)
      · exact hx.2.1 rfl
      · exact hbpost hb
    · rcases List.mem_cons.1 hc' with rfl | hc'
      · exact hdisj a ha _ List.mem_cons_self
      · rcases List.mem_cons.1 hc' with rfl | hc'
        · rintro rfl
          exact hx.1 ha
        · exact hdisj a ha c (List.mem_cons_of_mem b hc')
  · have h₀ := h.ne_zero
    simp only [List.mem_append, List.mem_cons, not_or] at h₀ ⊢
    exact ⟨h₀.1, h₀.2.1, hx₀.symm, h₀.2.2⟩

/-- The node `x` is taken out, where `p` and `q` are the nodes before and after it. -/
theorem DList.erase (h : DList next prev loose head tail (pre ++ x :: post))
    (hpx : prev x = pre.getLastD 0) (hn : ∀ a ∈ pre ++ post, a ≠ prev x → next' a = next a)
    (hp : ∀ a ∈ pre ++ post, a ≠ next x → prev' a = prev a)
    (hnp : prev x ≠ 0 → next' (prev x) = next x) (hpn : next x ≠ 0 → prev' (next x) = prev x) :
    DList next' prev' loose (if x = head then next x else head)
      (if x = tail then prev x else tail) (pre ++ post) := by
  obtain ⟨hpre, -, hnext, hpost⟩ := dseg_append.1 h.seg
  obtain ⟨hnpre, hnx, hdisj⟩ := List.nodup_append.1 h.nodup
  obtain ⟨-, hnpost⟩ := List.nodup_cons.1 hnx
  have h₀ : 0 ∉ pre ∧ 0 ∉ post := by
    have := h.ne_zero
    simp only [List.mem_append, List.mem_cons, not_or] at this
    exact ⟨this.1, this.2.2⟩
  -- the nodes before and after `x`, if there are any
  have hprev : ∀ a ∈ post, a ≠ prev x := by
    rintro a ha rfl
    rcases getLastD_cases hpx with ⟨-, hz⟩ | ⟨-, hmem⟩
    · exact h₀.2 (hz ▸ ha)
    · exact hdisj _ hmem _ (List.mem_cons_of_mem x ha) rfl
  have hnext' : ∀ a ∈ pre, a ≠ next x := by
    rintro a ha rfl
    rcases h.next_cases with ⟨-, hz⟩ | ⟨-, hmem⟩
    · exact h₀.1 (hz ▸ ha)
    · exact hdisj _ ha _ (List.mem_cons_of_mem x hmem) rfl
  have hlast : pre ≠ [] → prev x ≠ 0 := fun hne hz => by
    obtain ⟨-, hmem⟩ := (getLastD_cases hpx).resolve_left fun hp => hne hp.1
    exact h₀.1 (hz ▸ hmem)
  have hfirst : post ≠ [] → next x ≠ 0 := fun hne hz => h₀.2 (hz ▸ h.next_mem hne)
  refine ⟨dseg_append.2 ⟨hpre.relink_last hnpre
    (fun a ha hne => hn a (List.mem_append_left _ ha) ?_)
    (fun a ha => hp a (List.mem_append_left _ ha) (hnext' a ha)) fun hne => ?_,
    hpost.relink_head hnpost (fun a ha => hn a (List.mem_append_right _ ha) (hprev a ha))
      (fun a ha hne => hp a (List.mem_append_right _ ha) ?_) fun hne => .inl ?_⟩, ?_, ?_, ?_, ?_⟩
  · rw [hpx]
    exact hne
  · rw [← hpx, hnp (hlast hne), hnext]
  · rw [hnext]
    exact hne
  · rw [← hnext, hpn (hfirst hne), hpx]
  · rw [headD_append, ← hnext]
    split_ifs with hx
    · rw [h.eq_head_iff.1 hx]
      rfl
    · cases pre with
      | nil => exact absurd (h.eq_head_iff.2 rfl) hx
      | cons c pre => exact h.head_eq
  · rw [getLastD_append, ← hpx]
    split_ifs with hx
    · rw [h.eq_tail_iff.1 hx]
      rfl
    · cases post with
      | nil => exact absurd (h.eq_tail_iff.2 rfl) hx
      | cons c post =>
        rw [h.tail_eq, getLastD_append, List.getLastD_cons, List.getLastD_cons, List.getLastD_cons]
  · exact List.nodup_append.2
      ⟨hnpre, hnpost, fun a ha c hc => hdisj a ha c (List.mem_cons_of_mem x hc)⟩
  · rw [List.mem_append, not_or]
    exact h₀

/-- A second list linked to the end of the first one. The back link of its first node is not
    changed. -/
theorem DList.append {head' tail' : ℕ} (h : DList next prev loose head tail xs)
    (h' : DList next prev loose head' tail' ys) (hdisj : List.Disjoint xs ys) (hloose : loose)
    (hn : ∀ a ∈ xs ++ ys, a ≠ tail → next' a = next a) (hp : ∀ a ∈ xs ++ ys, prev' a = prev a)
    (htail : xs ≠ [] → next' tail = head') :
    DList next' prev' loose (if xs = [] then head' else head) (if ys = [] then tail else tail')
      (xs ++ ys) := by
  refine ⟨dseg_append.2 ⟨h.seg.relink_last h.nodup ?_
    (fun a ha => hp a (List.mem_append_left _ ha)) ?_,
    h'.seg.relink_head h'.nodup (fun a ha => hn a (List.mem_append_right _ ha) ?_)
      (fun a ha _ => hp a (List.mem_append_right _ ha)) fun hne => ?_⟩, ?_, ?_, ?_, ?_⟩
  · rw [← h.tail_eq]
    exact fun a ha => hn a (List.mem_append_left _ ha)
  · rw [← h.tail_eq, ← h'.head_eq]
    exact htail
  · rintro rfl
    by_cases hne : xs = []
    · rw [h.tail_eq_zero.2 hne] at ha
      exact h'.ne_zero ha
    · exact hdisj (h.tail_mem hne) ha
  · -- the back link of the first node stays null
    cases ys with
    | nil => exact absurd rfl hne
    | cons y ys =>
      refine .inr ⟨hloose, ?_⟩
      rw [List.headD_cons, hp y (by simp)]
      exact h'.seg.1.elim id And.right
  · rw [headD_append, ← h'.head_eq, h.head_eq]
    cases xs with
    | nil => exact if_pos rfl
    | cons a xs => exact if_neg (List.cons_ne_nil a xs)
  · rw [getLastD_append, ← h.tail_eq, h'.tail_eq]
    cases ys with
    | nil => exact if_pos rfl
    | cons a ys => rw [if_neg (List.cons_ne_nil a ys), List.getLastD_cons, List.getLastD_cons]
  · exact List.nodup_append.2 ⟨h.nodup, h'.nodup, fun a ha b hb hab => hdisj ha (hab ▸ hb)⟩
  · rw [List.mem_append, not_or]
    exact ⟨h.ne_zero, h'.ne_zero⟩

/-! ## Walks -/

/-- Following `f` from `p` passes the nodes `ns`, and ends at null. -/
def Visits (f : ℕ → ℕ) : ℕ → List ℕ → Prop
  | p, [] => p = 0
  | p, a :: ns => p = a ∧ a ≠ 0 ∧ Visits f (f a) ns

/-- There is only one walk. -/
theorem Visits.unique {f : ℕ → ℕ} (h : Visits f p xs) (h' : Visits f p ys) : xs = ys := by
  induction xs generalizing p ys with
  | nil =>
    cases ys with
    | nil => rfl
    | cons y ys => exact absurd (h'.1.symm.trans h) h'.2.1
  | cons x xs ih =>
    cases ys with
    | nil => exact absurd (h.1.symm.trans h') h.2.1
    | cons y ys =>
      obtain ⟨rfl, -, h⟩ := h
      obtain ⟨rfl, -, h'⟩ := h'
      rw [ih h h']

/-- The link of a node of a walk leads to the next one. -/
theorem Visits.link {f : ℕ → ℕ} (h : Visits f p (xs ++ a :: ys)) : f a = ys.headD 0 := by
  induction xs generalizing p with
  | nil =>
    cases ys with
    | nil => exact h.2.2
    | cons y ys => exact h.2.2.1
  | cons x xs ih => exact ih h.2.2

theorem Visits.ne_zero {f : ℕ → ℕ} (h : Visits f p ns) : ∀ a ∈ ns, a ≠ 0 := by
  induction ns generalizing p with
  | nil => exact List.forall_mem_nil _
  | cons a ns ih => exact List.forall_mem_cons.2 ⟨h.2.1, ih h.2.2⟩

theorem Visits.congr {f f' : ℕ → ℕ} (h : Visits f p ns) (hf : ∀ a ∈ ns, f' a = f a) :
    Visits f' p ns := by
  induction ns generalizing p with
  | nil => exact h
  | cons a ns ih =>
    refine ⟨h.1, h.2.1, ?_⟩
    rw [hf a List.mem_cons_self]
    exact ih h.2.2 fun b hb => hf b (List.mem_cons_of_mem a hb)

/-- A walk from one of its nodes on. -/
theorem Visits.suffix {f : ℕ → ℕ} (h : Visits f p (xs ++ a :: ys)) : Visits f a (a :: ys) := by
  induction xs generalizing p with
  | nil => exact ⟨rfl, h.2⟩
  | cons x xs ih => exact ih h.2.2

/-- A walk passes no node twice. -/
theorem Visits.nodup {f : ℕ → ℕ} (h : Visits f p ns) : ns.Nodup := by
  induction ns generalizing p with
  | nil => exact List.nodup_nil
  | cons a ns ih =>
    refine List.nodup_cons.2 ⟨fun ha => ?_, ih h.2.2⟩
    obtain ⟨xs, ys, rfl⟩ := List.append_of_mem ha
    -- from the second time on, the walk is as it was from the first time on
    have hagain : Visits f a (a :: (xs ++ a :: ys)) := ⟨rfl, h.2⟩
    have hlen := congrArg List.length (hagain.unique h.2.2.suffix)
    simp only [List.length_cons, List.length_append] at hlen
    omega

/-- The last link of a walk is made to lead to a new node. -/
theorem Visits.concat {f f' : ℕ → ℕ} (h : Visits f p (xs ++ [a])) (hf : ∀ b ∈ xs, f' b = f b)
    (ha : f' a = x) (hx : x ≠ 0) (hend : f' x = 0) : Visits f' p (xs ++ [a] ++ [x]) := by
  induction xs generalizing p with
  | nil => exact ⟨h.1, h.2.1, ha, hx, hend⟩
  | cons b xs ih =>
    refine ⟨h.1, h.2.1, ?_⟩
    rw [hf b List.mem_cons_self]
    exact ih h.2.2 fun c hc => hf c (List.mem_cons_of_mem b hc)

theorem DSeg.visits_next (h : DSeg next prev loose p ns 0) (h₀ : 0 ∉ ns) :
    Visits next (ns.headD 0) ns := by
  induction ns generalizing p with
  | nil => rfl
  | cons a ns ih =>
    obtain ⟨-, hnext, hrest⟩ := h
    rw [List.mem_cons, not_or] at h₀
    refine ⟨rfl, Ne.symm h₀.1, ?_⟩
    rw [hnext]
    exact ih hrest h₀.2

/-- Back from the last node of a segment, and on from the node before its first one. -/
theorem DSeg.visits_prev (h : DSeg next prev False p ns q) (h₀ : 0 ∉ ns)
    (hp : Visits prev p xs) : Visits prev (ns.getLastD p) (ns.reverse ++ xs) := by
  induction ns generalizing p xs with
  | nil => exact hp
  | cons a ns ih =>
    obtain ⟨hprev, -, hrest⟩ := h
    rw [List.mem_cons, not_or] at h₀
    rw [List.getLastD_cons, List.reverse_cons, List.append_assoc]
    refine ih hrest h₀.2 ⟨rfl, Ne.symm h₀.1, ?_⟩
    rw [hprev.resolve_right fun h => h.1]
    exact hp

theorem DList.visits_next (h : DList next prev loose head tail ns) : Visits next head ns := by
  rw [h.head_eq]
  exact h.seg.visits_next h.ne_zero

theorem DList.visits_prev (h : DList next prev False head tail ns) :
    Visits prev tail ns.reverse := by
  have hback : Visits prev _ (ns.reverse ++ []) := h.seg.visits_prev h.ne_zero rfl
  rw [List.append_nil] at hback
  rw [h.tail_eq]
  exact hback

end Machine
