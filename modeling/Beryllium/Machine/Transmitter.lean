import Beryllium.Machine.System
import Mathlib.Data.List.Infix
import Mathlib.Data.List.Basic

/-!
# A transmitter that is polled

A device with a queue, from which it sends one item after the other, and which drops an item that is
written when the queue is full (`Transmitter`). A writer polls the device until it is ready, and
then writes the next item of its text. Between any two of its steps it may be interrupted by a
writer that runs to its end, and that may be interrupted itself (`Transmitter.system`).

* `Transmitter.texts_intact`: the items of each text are written in their order, each once;
* `Transmitter.lossless`: nothing is dropped if a device is ready only when its queue is empty, and
  has room for an item of every writer that is nested;
* `Transmitter.dropped_le`: if a device is ready as soon as there is room for one item, at most one
  is dropped for each writer that starts between a poll and the write after it;
* `Transmitter.drains`: all writers can come to their end, and the queue become empty.
-/

namespace Machine

/-- A device, the states of which are `D`, that sends items of `α`. -/
structure Transmitter (D α : Type*) where
  /-- What a poll answers. -/
  ready : D → Bool
  /-- An item is written to the device. -/
  write : D → α → D
  /-- The device sends an item. -/
  shift : D → D
  /-- The room in the queue. -/
  capacity : ℕ
  /-- The items that wait. -/
  queued : D → List α
  /-- The items that were sent. -/
  wire : D → List α
  queued_write : ∀ d c, queued (write d c) =
    if (queued d).length < capacity then queued d ++ [c] else queued d
  wire_write : ∀ d c, wire (write d c) = wire d
  queued_shift : ∀ d, queued (shift d) = (queued d).tail
  wire_shift : ∀ d, wire (shift d) ++ queued (shift d) = wire d ++ queued d

namespace Transmitter

variable {D α : Type*}

/-- A writer: the number of its text, whether its last poll was answered, and the rest of its text.
    -/
structure Writer (α : Type*) where
  id : ℕ
  polled : Bool
  rest : List α

/-- The device and the writers, the one that runs first. The texts, the writes with the numbers of
    their texts, and the writers that have started after a poll of another one, are recorded. -/
structure Sending (D α : Type*) where
  port : D
  writers : List (Writer α)
  texts : List (List α)
  written : List (ℕ × α)
  preempted : ℕ

/-- The device sends an item, the writer takes a step, or another one starts. -/
inductive Op (α : Type*)
  | shift
  | step
  | start (text : List α)

variable (t : Transmitter D α)

/-- The writer that runs takes a step: it returns, writes, or polls. -/
def stepWriter (s : Sending D α) : Option (Sending D α) :=
  match s.writers with
  | [] => none
  | w :: ws =>
    match w.rest with
    | [] => some { s with writers := ws }
    | c :: cs =>
      if w.polled then
        some { s with
          port := t.write s.port c
          writers := ⟨w.id, false, cs⟩ :: ws
          written := s.written ++ [(w.id, c)] }
      else some { s with writers := ⟨w.id, t.ready s.port, c :: cs⟩ :: ws }

/-- The writer that runs has polled. -/
def Sending.polled (s : Sending D α) : Bool := s.writers.head?.any Writer.polled

/-- A writer of `text` starts. -/
def startWriter (s : Sending D α) (text : List α) : Sending D α :=
  { s with
    writers := ⟨s.texts.length, false, text⟩ :: s.writers
    texts := s.texts ++ [text]
    preempted := if s.polled then s.preempted + 1 else s.preempted }

/-- The runs of the device and of writers that are nested up to `depth`. -/
def system (depth : ℕ) : System (Sending D α) (Op α) where
  init s := t.wire s.port = [] ∧ t.queued s.port = [] ∧ s = ⟨s.port, [], [], [], 0⟩
  guard s
    | .start _ => s.writers.length < depth
    | _ => True
  step s
    | .shift => some { s with port := t.shift s.port }
    | .step => t.stepWriter s
    | .start text => some (startWriter s text)

variable {t} {s s' : Sending D α} {w : Writer α} {ws : List (Writer α)} {depth : ℕ} {c : α}
  {cs : List α}

theorem stepWriter_of_nil (hw : s.writers = w :: ws) (hrest : w.rest = []) :
    t.stepWriter s = some { s with writers := ws } := by
  simp only [stepWriter, hw, hrest]

theorem stepWriter_of_polled (hw : s.writers = w :: ws) (hrest : w.rest = c :: cs)
    (hp : w.polled = true) : t.stepWriter s = some { s with
      port := t.write s.port c
      writers := ⟨w.id, false, cs⟩ :: ws
      written := s.written ++ [(w.id, c)] } := by
  simp only [stepWriter, hw, hrest, hp, if_true]

theorem stepWriter_of_not_polled (hw : s.writers = w :: ws) (hrest : w.rest = c :: cs)
    (hp : w.polled = false) :
    t.stepWriter s = some { s with writers := ⟨w.id, t.ready s.port, c :: cs⟩ :: ws } := by
  simp only [stepWriter, hw, hrest, hp, Bool.false_eq_true, if_false]

/-- What a step of a writer is. -/
theorem stepWriter_cases (h : t.stepWriter s = some s') :
    ∃ w ws, s.writers = w :: ws ∧
      ((w.rest = [] ∧ s' = { s with writers := ws }) ∨
        ∃ c cs, w.rest = c :: cs ∧
          ((w.polled = true ∧ s' = { s with
              port := t.write s.port c
              writers := ⟨w.id, false, cs⟩ :: ws
              written := s.written ++ [(w.id, c)] }) ∨
            (w.polled = false ∧
              s' = { s with writers := ⟨w.id, t.ready s.port, c :: cs⟩ :: ws }))) := by
  rw [stepWriter] at h
  split at h
  · cases h
  · rename_i w ws hw
    refine ⟨w, ws, hw, ?_⟩
    split at h
    · rename_i hrest
      exact .inl ⟨hrest, (Option.some.inj h).symm⟩
    · rename_i c cs hrest
      refine .inr ⟨c, cs, hrest, ?_⟩
      split_ifs at h with hp
      · exact .inl ⟨hp, (Option.some.inj h).symm⟩
      · exact .inr ⟨Bool.not_eq_true _ ▸ hp, (Option.some.inj h).symm⟩

/-! ## The texts -/

/-- The items of the text `n` that were written. -/
def Sending.writtenOf (s : Sending D α) (n : ℕ) : List α :=
  (s.written.filter fun e => e.1 = n).map Prod.snd

/-- The items of the text `n` that are still to be written. -/
def Sending.restOf (s : Sending D α) (n : ℕ) : List α :=
  ((s.writers.find? fun w => w.id = n).map Writer.rest).getD []

/-- Every text is what was written of it, and the rest. -/
structure Intact (s : Sending D α) : Prop where
  ids : s.writers.Pairwise fun w v => v.id < w.id
  lt : ∀ w ∈ s.writers, w.id < s.texts.length
  written_lt : ∀ e ∈ s.written, e.1 < s.texts.length
  text : ∀ n text, s.texts[n]? = some text → s.writtenOf n ++ s.restOf n = text

/-- The writer that runs has the rest of its text. -/
theorem restOf_self (h : s.writers = w :: ws) : s.restOf w.id = w.rest := by
  rw [Sending.restOf, h, List.find?_cons_of_pos (by simp)]
  rfl

theorem restOf_of_ne {n : ℕ} (h : s.writers = w :: ws) (hn : w.id ≠ n) :
    s.restOf n = ((ws.find? fun w => w.id = n).map Writer.rest).getD [] := by
  rw [Sending.restOf, h, List.find?_cons_of_neg (by simpa using hn)]

/-- A writer other than the one that runs has another text. -/
theorem Intact.id_ne {v : Writer α} (hi : Intact s) (h : s.writers = w :: ws) (hv : v ∈ ws) :
    v.id ≠ w.id := by
  have hids := hi.ids
  rw [h, List.pairwise_cons] at hids
  exact (hids.1 v hv).ne

/-- The writer that runs takes a step: it has the items `rest` left, after it has written `out`. -/
theorem Intact.stepWriter {u : Sending D α} (hi : Intact s) (h : s.writers = w :: ws) (v : Writer α)
    (out : List α) (hrest : w.rest = out ++ v.rest) (hid : v.id = w.id) (htexts : u.texts = s.texts)
    (hwritten : u.written = s.written ++ out.map fun c => (w.id, c))
    (hu : u.writers = v :: ws ∨ v.rest = [] ∧ u.writers = ws) : Intact u := by
  have hids := hi.ids
  have hlt := hi.lt
  rw [h, List.pairwise_cons] at hids
  rw [h, List.forall_mem_cons] at hlt
  have hof (n : ℕ) : u.writtenOf n = s.writtenOf n ++ if w.id = n then out else [] := by
    rw [Sending.writtenOf, Sending.writtenOf, hwritten, List.filter_append, List.map_append,
      List.filter_map]
    congr 1
    by_cases hn : w.id = n <;> simp [hn, Function.comp_def]
  have hof' (n : ℕ) : s.restOf n = (if w.id = n then out else []) ++ u.restOf n := by
    by_cases hn : w.id = n
    · subst hn
      rw [restOf_self h, if_pos rfl, hrest]
      congr 1
      rcases hu with hu | ⟨hnil, hu⟩
      · rw [← hid, restOf_self hu]
      · rw [Sending.restOf, hu,
          List.find?_eq_none.2 fun v' hv' => by simpa using hi.id_ne h hv', hnil]
        rfl
    · rw [if_neg hn, List.nil_append, restOf_of_ne h hn]
      rcases hu with hu | ⟨-, hu⟩
      · rw [restOf_of_ne hu (hid ▸ hn)]
      · rw [Sending.restOf, hu]
  constructor
  · rcases hu with hu | ⟨-, hu⟩
    · rw [hu, List.pairwise_cons, hid]
      exact hids
    · exact hu ▸ hids.2
  · rw [htexts]
    rcases hu with hu | ⟨-, hu⟩
    · rw [hu, List.forall_mem_cons, hid]
      exact hlt
    · exact hu ▸ hlt.2
  · rw [hwritten, htexts]
    intro e he
    rcases List.mem_append.1 he with he | he
    · exact hi.written_lt e he
    · obtain ⟨c, -, rfl⟩ := List.mem_map.1 he
      exact hlt.1
  · intro n text hn
    rw [hof, List.append_assoc, ← hof']
    exact hi.text n text (htexts ▸ hn)

/-- A writer starts with the whole of its text. -/
theorem Intact.startWriter (hi : Intact s) (text : List α) : Intact (startWriter s text) := by
  have hw : (Transmitter.startWriter s text).writers = ⟨s.texts.length, false, text⟩ :: s.writers :=
    rfl
  constructor
  · rw [hw, List.pairwise_cons]
    exact ⟨hi.lt, hi.ids⟩
  · rw [hw, List.forall_mem_cons]
    refine ⟨?_, fun w hmem => (hi.lt w hmem).trans ?_⟩ <;> simp [Transmitter.startWriter]
  · intro e he
    refine (hi.written_lt e he).trans ?_
    simp [Transmitter.startWriter]
  · intro n text' hn
    rcases Nat.lt_trichotomy n s.texts.length with hlt | rfl | hgt
    · rw [restOf_of_ne hw hlt.ne']
      refine hi.text n text' ?_
      rwa [Transmitter.startWriter, List.getElem?_append_left hlt] at hn
    · have hnone : (Transmitter.startWriter s text).writtenOf s.texts.length = [] := by
        rw [Sending.writtenOf, List.map_eq_nil_iff, List.filter_eq_nil_iff]
        exact fun e he => by simpa using (hi.written_lt e he).ne
      rw [hnone, List.nil_append]
      refine (restOf_self hw).trans ?_
      rw [Transmitter.startWriter, List.getElem?_concat_length] at hn
      exact Option.some.inj hn
    · rw [Transmitter.startWriter,
        List.getElem?_eq_none (by simpa using Nat.succ_le_of_lt hgt)] at hn
      cases hn

theorem Intact.step {op : Op α} (hi : Intact s) (hs : (t.system depth).step s op = some s') :
    Intact s' := by
  cases op with
  | shift =>
    obtain rfl := Option.some.inj hs
    exact ⟨hi.ids, hi.lt, hi.written_lt, hi.text⟩
  | start text =>
    obtain rfl := Option.some.inj hs
    exact hi.startWriter text
  | step =>
    obtain ⟨w, ws, hw, ⟨hnil, rfl⟩ | ⟨c, cs, hrest, ⟨-, rfl⟩ | ⟨-, rfl⟩⟩⟩ := stepWriter_cases hs
    · exact hi.stepWriter hw w [] rfl rfl rfl (List.append_nil _).symm (.inr ⟨hnil, rfl⟩)
    · exact hi.stepWriter hw ⟨w.id, false, cs⟩ [c] hrest rfl rfl rfl (.inl rfl)
    · exact hi.stepWriter hw ⟨w.id, t.ready s.port, c :: cs⟩ [] hrest rfl rfl
        (List.append_nil _).symm (.inl rfl)

/-- The items of each text are written in their order, each once. -/
theorem texts_intact (h : (t.system depth).Reachable s) : Intact s := by
  refine h.of_step ?_ fun s op s' hi _ hs => hi.step hs
  rintro s ⟨-, -, hs⟩
  rw [hs]
  exact ⟨.nil, fun w hw => absurd hw List.not_mem_nil, fun e he => absurd he List.not_mem_nil,
    fun n text hn => nomatch hn⟩

/-- The whole text is written if its writer is at its end. -/
theorem Intact.writtenOf_eq {n : ℕ} {text : List α} (hi : Intact s) (hn : s.texts[n]? = some text)
    (hend : s.writers = []) : s.writtenOf n = text := by
  have h := hi.text n text hn
  rwa [Sending.restOf, hend, List.find?_nil, Option.map_none, Option.getD_none,
    List.append_nil] at h

/-! ## What is dropped -/

/-- What is sent or waits. -/
def onLine (t : Transmitter D α) (s : Sending D α) : List α := t.wire s.port ++ t.queued s.port

/-- A write puts the item on the line if there is room for it. -/
theorem onLine_write (d : D) (c : α) : t.wire (t.write d c) ++ t.queued (t.write d c) =
    t.wire d ++ t.queued d ++ if (t.queued d).length < t.capacity then [c] else [] := by
  rw [t.wire_write, t.queued_write]
  split_ifs
  · exact (List.append_assoc ..).symm
  · exact (List.append_nil _).symm

theorem length_queued_shift (d : D) : (t.queued (t.shift d)).length ≤ (t.queued d).length := by
  rw [t.queued_shift, List.length_tail]
  exact Nat.sub_le _ _

/-- Every writer that has polled finds room for its item, and for one of every writer that was
    started before it. -/
def Room (depth q : ℕ) : List (Writer α) → Prop
  | [] => True
  | w :: ws => (w.polled = true → q + ws.length + 1 ≤ depth) ∧ Room depth q ws

theorem Room.mono {q q' : ℕ} (hq : q' ≤ q) (h : Room depth q ws) : Room depth q' ws := by
  induction ws with
  | nil => trivial
  | cons w ws ih =>
    exact ⟨fun hp => (Nat.add_le_add_right (Nat.add_le_add_right hq _) 1).trans (h.1 hp), ih h.2⟩

/-- There is room for one item of every writer. -/
theorem room_of_le {q : ℕ} (h : q + ws.length ≤ depth) : Room depth q ws := by
  induction ws with
  | nil => trivial
  | cons w ws ih => exact ⟨fun _ => h, ih (by rw [List.length_cons] at h; omega)⟩

/-- The state of a device that is ready only when its queue is empty. -/
structure Lossless (t : Transmitter D α) (depth : ℕ) (s : Sending D α) : Prop where
  line : t.onLine s = s.written.map Prod.snd
  nested : s.writers.length ≤ depth
  room : Room depth (t.queued s.port).length s.writers

theorem Lossless.step {op : Op α} (hready : ∀ d, t.ready d = true → t.queued d = [])
    (hdepth : depth ≤ t.capacity) (h : Lossless t depth s) (hg : (t.system depth).guard s op)
    (hs : (t.system depth).step s op = some s') : Lossless t depth s' := by
  cases op with
  | shift =>
    obtain rfl := Option.some.inj hs
    exact ⟨(t.wire_shift _).trans h.line, h.nested, h.room.mono (length_queued_shift _)⟩
  | start text =>
    obtain rfl := Option.some.inj hs
    exact ⟨h.line, hg, ⟨fun hp => Bool.noConfusion hp, h.room⟩⟩
  | step =>
    have hd := h.nested
    have hroom := h.room
    obtain ⟨w, ws, hw, hcases⟩ := stepWriter_cases hs
    rw [hw] at hd hroom
    rw [List.length_cons] at hd
    rcases hcases with ⟨-, rfl⟩ | ⟨c, cs, -, ⟨hp, rfl⟩ | ⟨-, rfl⟩⟩
    · exact ⟨h.line, Nat.le_of_succ_le hd, hroom.2⟩
    · -- there is room for the item, and then for those of the writers before
      have hle := hroom.1 hp
      have hlt : (t.queued s.port).length < t.capacity := by omega
      refine ⟨?_, hd, ⟨fun hp => Bool.noConfusion hp, room_of_le ?_⟩⟩
      · rw [onLine, onLine_write, if_pos hlt, List.map_append]
        exact congrArg (· ++ [c]) h.line
      · dsimp only
        rw [t.queued_write, if_pos hlt, List.length_append, List.length_singleton]
        omega
    · refine ⟨h.line, hd, ⟨fun hp => ?_, hroom.2⟩⟩
      dsimp only
      rw [hready _ hp, List.length_nil, Nat.zero_add]
      exact hd

/-- Nothing is dropped by a device that is ready only when its queue is empty, with room for an item
    of every writer. -/
theorem lossless (hready : ∀ d, t.ready d = true → t.queued d = []) (hdepth : depth ≤ t.capacity)
    (h : (t.system depth).Reachable s) : t.onLine s = s.written.map Prod.snd := by
  refine (h.of_step (P := Lossless t depth) ?_ fun s op s' hl hg hs => hl.step hready hdepth
    hg hs).line
  rintro s ⟨hwire, hqueued, hs⟩
  refine ⟨?_, ?_, ?_⟩
  · rw [onLine, hwire, hqueued, hs]
    rfl
  · rw [hs]
    exact Nat.zero_le _
  · rw [hs]
    trivial

/-- The writers that may write to a full queue: those that were interrupted after a poll, and the
    one that runs, if it has polled and the queue is full. -/
def stale (capacity q : ℕ) : List (Writer α) → ℕ
  | [] => 0
  | w :: ws => (if w.polled = true ∧ capacity ≤ q then 1 else 0) + ws.countP Writer.polled

theorem stale_le (capacity q : ℕ) (ws : List (Writer α)) :
    stale capacity q ws ≤ ws.countP Writer.polled := by
  cases ws with
  | nil => exact Nat.zero_le _
  | cons w ws =>
    rw [stale, List.countP_cons, Nat.add_comm]
    refine Nat.add_le_add_left ?_ _
    split_ifs with h₁ h₂
    · exact le_rfl
    · exact absurd h₁.1 h₂
    · exact Nat.zero_le _
    · exact le_rfl

theorem stale_mono {q q' : ℕ} (capacity : ℕ) (ws : List (Writer α)) (hq : q' ≤ q) :
    stale capacity q' ws ≤ stale capacity q ws := by
  cases ws with
  | nil => exact le_rfl
  | cons w ws =>
    refine Nat.add_le_add_right ?_ _
    split_ifs with h₁ h₂
    · exact le_rfl
    · exact absurd ⟨h₁.1, h₁.2.trans hq⟩ h₂
    · exact Nat.zero_le _
    · exact le_rfl

/-- What is dropped by a device that is ready as soon as there is room. -/
structure Drops (t : Transmitter D α) (s : Sending D α) : Prop where
  line : (t.onLine s).Sublist (s.written.map Prod.snd)
  count : s.written.length + stale t.capacity (t.queued s.port).length s.writers ≤
    (t.onLine s).length + s.preempted

theorem Drops.step {op : Op α} (hready : ∀ d, t.ready d = true → (t.queued d).length < t.capacity)
    (h : Drops t s) (hs : (t.system depth).step s op = some s') : Drops t s' := by
  have hcount := h.count
  cases op with
  | shift =>
    obtain rfl := Option.some.inj hs
    have hline : t.onLine { s with port := t.shift s.port } = t.onLine s := t.wire_shift _
    refine ⟨hline ▸ h.line, ?_⟩
    have hmono := stale_mono t.capacity s.writers (length_queued_shift (t := t) s.port)
    rw [hline]
    dsimp only
    omega
  | start text =>
    obtain rfl := Option.some.inj hs
    refine ⟨h.line, ?_⟩
    -- a writer that has polled is interrupted
    have hstale : stale t.capacity (t.queued s.port).length
        (⟨s.texts.length, false, text⟩ :: s.writers) = s.writers.countP Writer.polled := by
      rw [stale, if_neg fun hc => Bool.false_ne_true hc.1, Nat.zero_add]
    have hle : s.writers.countP Writer.polled ≤
        stale t.capacity (t.queued s.port).length s.writers + if s.polled then 1 else 0 := by
      rw [Sending.polled]
      cases s.writers with
      | nil => exact Nat.zero_le _
      | cons w ws =>
        rw [stale, List.countP_cons, List.head?_cons, Option.any_some]
        omega
    dsimp only [onLine, startWriter] at hcount ⊢
    rw [hstale]
    split_ifs at hle ⊢ <;> omega
  | step =>
    obtain ⟨w, ws, hw, hcases⟩ := stepWriter_cases hs
    rw [hw, stale] at hcount
    rcases hcases with ⟨-, rfl⟩ | ⟨c, cs, -, ⟨hp, rfl⟩ | ⟨-, rfl⟩⟩
    · refine ⟨h.line, ?_⟩
      have hle := stale_le t.capacity (t.queued s.port).length ws
      dsimp only [onLine] at hcount ⊢
      omega
    · rw [hp] at hcount
      refine ⟨?_, ?_⟩
      · rw [onLine, onLine_write, List.map_append]
        refine h.line.append ?_
        split_ifs
        · exact List.Sublist.refl _
        · exact List.nil_sublist _
      · rw [onLine, onLine_write, List.length_append, List.length_append,
          List.length_singleton, stale, if_neg fun hc => Bool.false_ne_true hc.1]
        rw [onLine] at hcount
        split_ifs with hlt
        · rw [if_neg fun hc => absurd hc.2 (Nat.not_le.2 hlt)] at hcount
          dsimp only
          rw [List.length_singleton]
          omega
        · rw [if_pos ⟨rfl, Nat.not_lt.1 hlt⟩] at hcount
          dsimp only
          rw [List.length_nil]
          omega
    · refine ⟨h.line, ?_⟩
      rw [stale, if_neg fun hc => absurd hc.2 (Nat.not_le.2 (hready _ hc.1))]
      dsimp only [onLine] at hcount ⊢
      omega

/-- What a device sends that is ready as soon as there is room for an item is what is written, but
    for at most one item for each writer that was interrupted after a poll. -/
theorem dropped_le (hready : ∀ d, t.ready d = true → (t.queued d).length < t.capacity)
    (h : (t.system depth).Reachable s) : (t.onLine s).Sublist (s.written.map Prod.snd) ∧
      s.written.length ≤ (t.onLine s).length + s.preempted := by
  have hdrops : Drops t s := by
    refine h.of_step ?_ fun s op s' hd _ hs => hd.step hready hs
    rintro s ⟨hwire, hqueued, hs⟩
    constructor
    · rw [onLine, hwire, hqueued]
      exact List.nil_sublist _
    · rw [hs]
      exact Nat.zero_le _
  exact ⟨hdrops.line, (Nat.le_add_right _ _).trans hdrops.count⟩

/-! ## The end of the texts -/

/-- No writer starts. -/
def NoStart (ops : List (Op α)) : Prop := ∀ text, .start text ∉ ops

/-- The queue becomes empty. -/
theorem exists_shifts (t : Transmitter D α) (depth : ℕ) (s : Sending D α) :
    ∃ ops d, NoStart ops ∧ t.queued d = [] ∧ (t.system depth).Run s ops { s with port := d } := by
  generalize hq : (t.queued s.port).length = q
  induction q generalizing s with
  | zero => exact ⟨[], s.port, fun _ => List.not_mem_nil, List.length_eq_zero_iff.1 hq, .nil _⟩
  | succ q ih =>
    have hshift : (t.queued (t.shift s.port)).length = q := by
      rw [t.queued_shift, List.length_tail, hq, Nat.add_sub_cancel]
    obtain ⟨ops, d, hops, hd, hrun⟩ := ih { s with port := t.shift s.port } hshift
    refine ⟨.shift :: ops, d, fun text hmem => ?_, hd, .cons trivial rfl hrun⟩
    exact hops text ((List.mem_cons.1 hmem).resolve_left fun h => nomatch h)

/-- What the writers have left to do. -/
def todo : List (Writer α) → ℕ
  | [] => 0
  | w :: ws => w.rest.length + 1 + todo ws

/-- The writer that runs writes its next item, or returns. -/
theorem exists_less (hready : ∀ d, t.queued d = [] → t.ready d = true) (hw : s.writers = w :: ws) :
    ∃ ops s', NoStart ops ∧ (t.system depth).Run s ops s' ∧ todo s'.writers < todo s.writers ∧
      s'.texts = s.texts := by
  have hone : NoStart [(.step : Op α)] := fun text hmem => nomatch List.mem_singleton.1 hmem
  have htodo : todo s.writers = w.rest.length + 1 + todo ws := by
    rw [hw]
    rfl
  cases hrest : w.rest with
  | nil =>
    refine ⟨[.step], _, hone, .cons trivial (stepWriter_of_nil hw hrest) (.nil _), ?_, rfl⟩
    dsimp only
    omega
  | cons c cs =>
    have hless : todo (⟨w.id, false, cs⟩ :: ws : List (Writer α)) < todo s.writers := by
      rw [htodo, hrest]
      change cs.length + 1 + todo ws < _
      rw [List.length_cons]
      omega
    cases hp : w.polled with
    | true =>
      exact ⟨[.step], _, hone, .cons trivial (stepWriter_of_polled hw hrest hp) (.nil _),
        hless, rfl⟩
    | false =>
      -- the poll is answered when the queue is empty
      obtain ⟨ops, d, hops, hd, hrun⟩ := exists_shifts t depth s
      have hpoll := stepWriter_of_not_polled (t := t) (s := { s with port := d }) hw hrest hp
      rw [hready d hd] at hpoll
      have hwrite := stepWriter_of_polled (t := t)
        (s := { s with port := d, writers := ⟨w.id, true, c :: cs⟩ :: ws }) rfl rfl rfl
      have htail : (t.system depth).Run { s with port := d } [.step, .step] _ :=
        .cons trivial hpoll (.cons trivial hwrite (.nil _))
      have hnone : NoStart (ops ++ [.step, .step]) := by
        intro text hmem
        rcases List.mem_append.1 hmem with hmem | hmem
        · exact hops text hmem
        · simp at hmem
      exact ⟨_, _, hnone, hrun.append htail, hless, rfl⟩

/-- All writers can come to their end and the queue can become empty, without another writer. -/
theorem drains (t : Transmitter D α) (depth : ℕ) (hready : ∀ d, t.queued d = [] → t.ready d = true)
    (s : Sending D α) :
    ∃ ops s', NoStart ops ∧ (t.system depth).Run s ops s' ∧ s'.writers = [] ∧
    t.queued s'.port = [] ∧
      s'.texts = s.texts := by
  generalize hn : todo s.writers = n
  induction n using Nat.strong_induction_on generalizing s with
  | _ n ih =>
    cases hw : s.writers with
    | nil =>
      obtain ⟨ops, d, hops, hd, hrun⟩ := exists_shifts t depth s
      exact ⟨ops, _, hops, hrun, hw, hd, rfl⟩
    | cons w ws =>
      obtain ⟨ops, u, hops, hrun, hless, htexts⟩ := exists_less hready hw
      obtain ⟨ops', s', hops', hrun', hend, hempty, htexts'⟩ := ih _ (hn ▸ hless) u rfl
      refine ⟨ops ++ ops', s', fun text hmem => ?_, hrun.append hrun', hend, hempty,
        htexts'.trans htexts⟩
      exact (List.mem_append.1 hmem).elim (hops text) (hops' text)

end Transmitter

end Machine
