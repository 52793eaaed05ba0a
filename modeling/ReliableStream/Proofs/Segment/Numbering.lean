import Mathlib.Algebra.Ring.Nat
import ReliableStream.Proofs.Segment.Wire
import ReliableStream.Proofs.Sending.Conveys
import ReliableStream.Segment.Numbering

/-!
# Numbering a stream, call by call

A `Call` asks a numbering for a data segment, for the FIN or for a pure acknowledgment, or sets the
window that new segments carry. `run` makes calls one after another and collects the data segments
and the FIN that they give.

Whatever calls were made, the segments collected so far say what the next call does
(`run_disciplined`): whether and why it is refused (`refusal`), and else where its segment begins,
which is what the call asks for (`Call.AnsweredBy`). The proof keeps `Agrees` from one call to the
next (`Agrees.call`).
-/

namespace ReliableStream.Numbering

inductive Call where
  | data (payload : Bytes) (ackno : UInt32)
  | finish (ackno : UInt32)
  | ack (ackno : UInt32)
  | setWindow (window : UInt16)

/-- The call asks for a segment of the stream. -/
def Call.isNumbered : Call → Bool
  | .data .. | .finish _ => true
  | _ => false

/-- What is given is what the call asks for. -/
def Call.AnsweredBy : Call → Option Segment → Prop
  | .data payload ackno, some s => s.flags = .ack ∧ s.payload = payload ∧ s.ackno = ackno
  | .finish ackno, some s => s.flags = .ack ||| .fin ∧ s.payload = [] ∧ s.ackno = ackno
  | .ack ackno, some s => s.flags = .ack ∧ s.payload = [] ∧ s.ackno = ackno
  | .setWindow _, none => True
  | _, _ => False

/-- What a call comes to, and the numbering after it. One that is refused makes no new numbering. -/
def settle (n : Numbering) (result : Except Error (Segment × Numbering)) :
    Except Error (Option Segment) × Numbering :=
  match result with
  | .ok (s, m) => (.ok (some s), m)
  | .error e => (.error e, n)

def call (n : Numbering) : Call → Except Error (Option Segment) × Numbering
  | .data payload ackno => n.settle (n.data payload ackno)
  | .finish ackno => n.settle (n.finish ackno)
  | .ack ackno => (.ok (some (n.ack ackno)), n)
  | .setWindow window => (.ok none, n.setWindow window)

/-- The segments that are numbered once the call has given `result`. -/
def note (done : List Segment) (x : Call) (result : Except Error (Option Segment)) : List Segment :=
  match result with
  | .ok (some s) => if x.isNumbered then done ++ [s] else done
  | _ => done

/-- The numbered segments that the calls give, in order, and the numbering after them. -/
def run (n : Numbering) (calls : List Call) : List Segment × Numbering :=
  calls.foldl (fun (done, n) x => (note done x (n.call x).1, (n.call x).2)) ([], n)

@[simp] theorem run_nil (n : Numbering) : n.run [] = ([], n) := rfl

theorem run_snoc (n : Numbering) (calls : List Call) (x : Call) :
    n.run (calls ++ [x]) =
      (note (n.run calls).1 x ((n.run calls).2.call x).1, ((n.run calls).2.call x).2) := by
  simp [run]

/-- How many positions the segments take up. -/
def spans (done : List Segment) : Nat := (done.map Segment.span).sum

@[simp] theorem spans_snoc (done : List Segment) (s : Segment) :
    spans (done ++ [s]) = spans done + s.span := by
  simp [spans]

/-- Why a call is refused, if it is, where `done` are the segments numbered before. -/
def refusal (maxPayload : Nat) (done : List Segment) : Call → Option Error
  | .data payload _ =>
    if done.any Segment.hasFin then some .secondFin
    else if min maxPayload Segment.maxPayload < payload.length then
      some (.payloadTooLarge payload.length (min maxPayload Segment.maxPayload))
    else if lastPosition < firstPosition + spans done + payload.length then some .outOfPositions
    else none
  | .finish _ =>
    if done.any Segment.hasFin then some .secondFin
    else if lastPosition < firstPosition + spans done + 1 then some .outOfPositions
    else none
  | _ => none

/-! ## From one call to the next -/

/-- The numbering is where the segments numbered so far have brought it. -/
structure Agrees (maxPayload : Nat) (done : List Segment) (n : Numbering) : Prop where
  maxPayload_eq : n.maxPayload = min maxPayload Segment.maxPayload
  next_eq : n.next = firstPosition + spans done
  next_le : n.next ≤ lastPosition
  stop_eq : ∀ s ∈ done.getLast?, s.start + s.span = n.next
  fin_eq : n.fin.isSome = done.any Segment.hasFin
  fin_last : done.Pairwise fun a _ => a.hasFin = false

variable {maxPayload : Nat} {done : List Segment} {n : Numbering} {x : Call} {s : Segment}

theorem agrees_start (window : UInt16) (maxPayload : Nat) :
    Agrees maxPayload [] (start window maxPayload) where
  maxPayload_eq := rfl
  next_eq := rfl
  next_le := show firstPosition ≤ lastPosition by decide
  stop_eq s hs := by cases hs
  fin_eq := rfl
  fin_last := .nil

/-- What is numbered comes where the segments before it end. -/
theorem Agrees.push {fin : Option Nat} (h : Agrees maxPayload done n)
    (hopen : done.any Segment.hasFin = false) (hstart : s.start = n.next)
    (hle : n.next + s.span ≤ lastPosition) (hfin : fin.isSome = s.hasFin) :
    Agrees maxPayload (done ++ [s]) { n with next := n.next + s.span, fin } where
  maxPayload_eq := h.maxPayload_eq
  next_eq := by
    rw [spans_snoc, ← Nat.add_assoc, ← h.next_eq]
  next_le := hle
  stop_eq t ht := by
    obtain rfl : s = t := by simpa using ht
    rw [hstart]
  fin_eq := by
    rw [List.any_append, hopen]
    simpa using hfin
  fin_last := by
    refine List.pairwise_append.mpr ⟨h.fin_last, List.pairwise_singleton _ _, fun a ha _ _ => ?_⟩
    simpa using List.any_eq_false.mp hopen a ha

/-- A data segment is refused for its reason, or has the payload and comes next. -/
theorem Agrees.data (h : Agrees maxPayload done n) (payload : Bytes) (ackno : UInt32) :
    (∃ e, refusal maxPayload done (.data payload ackno) = some e ∧
        n.data payload ackno = .error e) ∨
      refusal maxPayload done (.data payload ackno) = none ∧
        done.any Segment.hasFin = false ∧ payload.length ≤ Segment.maxPayload ∧
        n.next + payload.length ≤ lastPosition ∧
        n.data payload ackno =
          .ok (n.segment ackno .ack payload, { n with next := n.next + payload.length }) := by
  unfold Numbering.data
  simp only [refusal]
  rw [h.fin_eq, h.maxPayload_eq, ← h.next_eq]
  split
  · exact .inl ⟨_, rfl, rfl⟩
  next hopen =>
    split
    · exact .inl ⟨_, rfl, rfl⟩
    next hlen =>
      split
      · exact .inl ⟨_, rfl, rfl⟩
      next hroom => exact .inr ⟨rfl, by simpa using hopen, by omega, by omega, rfl⟩

theorem Agrees.finish (h : Agrees maxPayload done n) (ackno : UInt32) :
    (∃ e, refusal maxPayload done (.finish ackno) = some e ∧ n.finish ackno = .error e) ∨
      refusal maxPayload done (.finish ackno) = none ∧
        done.any Segment.hasFin = false ∧ n.next + 1 ≤ lastPosition ∧
        n.finish ackno = .ok (n.segment ackno (.ack ||| .fin) [],
          { n with next := n.next + 1, fin := some n.next }) := by
  unfold Numbering.finish
  simp only [refusal]
  rw [h.fin_eq, ← h.next_eq]
  split
  · exact .inl ⟨_, rfl, rfl⟩
  next hopen =>
    split
    · exact .inl ⟨_, rfl, rfl⟩
    next hroom => exact .inr ⟨rfl, by simpa using hopen, by omega, rfl⟩

/-- All that a call can come to. -/
inductive Comes (maxPayload : Nat) (done : List Segment) (n : Numbering) (x : Call) : Prop
  | refused {e : Error} (reason : refusal maxPayload done x = some e)
      (called : n.call x = (.error e, n))
  | numbered {s : Segment} {f : Option Nat} (accepted : refusal maxPayload done x = none)
      (numbers : x.isNumbered = true) (opened : done.any Segment.hasFin = false)
      (start_eq : s.start = n.next) (sound : s.Sound) (le_last : n.next + s.span ≤ lastPosition)
      (fin_eq : f.isSome = s.hasFin) (answered : x.AnsweredBy (some s))
      (called : n.call x = (.ok (some s), { n with next := n.next + s.span, fin := f }))
  | acknowledged {s : Segment} (accepted : refusal maxPayload done x = none)
      (bare : x.isNumbered = false) (start_eq : s.start = n.next) (sound : s.Sound)
      (answered : x.AnsweredBy (some s)) (called : n.call x = (.ok (some s), n))
  | window {w : UInt16} (accepted : refusal maxPayload done x = none)
      (answered : x.AnsweredBy none)
      (called : n.call x = (.ok none, n.setWindow w))

theorem Agrees.comes (h : Agrees maxPayload done n) (x : Call) : Comes maxPayload done n x := by
  cases x with
  | data payload ackno =>
    rcases h.data payload ackno with ⟨e, hreason, heq⟩ | ⟨hnone, hopen, hlen, hroom, heq⟩
    · exact .refused hreason (by rw [call, heq, settle])
    · obtain ⟨hfin, hspan⟩ := n.span_data ackno payload
      have hclosed : n.fin = none := by
        have := h.fin_eq
        rw [hopen] at this
        simpa using this
      refine .numbered hnone rfl hopen (n.start_segment h.next_le ackno .ack payload)
        (Segment.sound_sealed hlen) (by rw [hspan]; exact hroom) (f := n.fin) ?_ ⟨rfl, rfl, rfl⟩ ?_
      · rw [hclosed, hfin]
        rfl
      · rw [call, heq, settle, hspan]
  | finish ackno =>
    rcases h.finish ackno with ⟨e, hreason, heq⟩ | ⟨hnone, hopen, hroom, heq⟩
    · exact .refused hreason (by rw [call, heq, settle])
    · obtain ⟨hfin, hspan⟩ := n.span_fin ackno
      refine .numbered hnone rfl hopen (n.start_segment h.next_le ackno (.ack ||| .fin) [])
        (Segment.sound_sealed (Nat.zero_le _)) (by rw [hspan]; exact hroom)
        (f := some n.next) ?_ ⟨rfl, rfl, rfl⟩ ?_
      · rw [hfin]
        rfl
      · rw [call, heq, settle, hspan]
  | ack ackno =>
    exact .acknowledged rfl rfl (n.start_segment h.next_le ackno .ack [])
      (Segment.sound_sealed (Nat.zero_le _)) ⟨rfl, rfl, rfl⟩ rfl
  | setWindow window => exact .window rfl trivial rfl

/-- The numbering and the numbered segments go on together. -/
theorem Agrees.call (h : Agrees maxPayload done n) (x : Call) :
    Agrees maxPayload (note done x (n.call x).1) (n.call x).2 := by
  cases h.comes x with
  | refused _ heq =>
    rw [heq]
    exact h
  | numbered _ hnumbers hopen hstart _ hle hfin _ heq =>
    rw [heq, note, if_pos hnumbers]
    exact h.push hopen hstart hle hfin
  | acknowledged _ hbare _ _ _ heq =>
    rw [heq, note, if_neg (by simp [hbare])]
    exact h
  | window _ _ heq =>
    rw [heq]
    exact ⟨h.maxPayload_eq, h.next_eq, h.next_le, h.stop_eq, h.fin_eq, h.fin_last⟩

theorem agrees_run (window : UInt16) (maxPayload : Nat) (calls : List Call) :
    Agrees maxPayload ((start window maxPayload).run calls).1
      ((start window maxPayload).run calls).2 := by
  induction calls using List.reverseRecOn with
  | nil => exact agrees_start window maxPayload
  | append_singleton calls x ih =>
    rw [run_snoc]
    exact ih.call x

/-! ## After any calls -/

/-- What holds of a numbering once it has given the segments `done`. -/
structure Disciplined (maxPayload : Nat) (done : List Segment) (n : Numbering) : Prop where
  /-- The next position is the end of the last segment, as a number without bound. -/
  next_eq : n.next = firstPosition + spans done
  next_le : n.next ≤ lastPosition
  stop_eq : ∀ s ∈ done.getLast?, s.start + s.span = n.next ∧ s.wrappedStop = n.next
  one_fin : done.countP Segment.hasFin ≤ 1
  fin_last : done.Pairwise fun a _ => a.hasFin = false
  after_fin : done.any Segment.hasFin = true →
    ∀ x : Call, x.isNumbered = true → (n.call x).1 = .error .secondFin
  start_eq : ∀ x s, (n.call x).1 = .ok (some s) → s.start = firstPosition + spans done
  /-- A call that is not refused gives what it asks for. -/
  answered : ∀ x, refusal maxPayload done x = none → ∃ r, (n.call x).1 = .ok r ∧ x.AnsweredBy r
  decodes : ∀ x s, (n.call x).1 = .ok (some s) → Segment.decode s.encode = .ok s
  ack_eq : ∀ ackno, (n.call (.ack ackno)).2 = n
  error_iff : ∀ x e, (n.call x).1 = .error e ↔ refusal maxPayload done x = some e
  /-- A call that is refused changes nothing. -/
  unchanged : ∀ x e, (n.call x).1 = .error e → (n.call x).2 = n

theorem Agrees.wrappedStop_eq (h : Agrees maxPayload done n) (hs : s ∈ done.getLast?) :
    s.wrappedStop = n.next := by
  have hle := h.next_le
  unfold lastPosition at hle
  rw [Segment.wrappedStop, h.stop_eq s hs]
  exact Nat.mod_eq_of_lt (by omega)

/-- Nothing comes after a FIN, so there is no second one. -/
theorem Agrees.one_fin (h : Agrees maxPayload done n) : done.countP Segment.hasFin ≤ 1 := by
  have hlast := h.fin_last
  generalize done = l at hlast
  induction l with
  | nil => simp
  | cons a l ih =>
    obtain ⟨ha, hl⟩ := List.pairwise_cons.mp hlast
    cases l with
    | nil => exact List.countP_le_length
    | cons b l =>
      rw [List.countP_cons_of_neg (by simp [ha b (.head l)])]
      exact ih hl

/-- However often and for whatever it is called, with whatever result, a numbering goes through the
positions without a gap, an overlap or a wrap, and gives no segment that cannot be read back. -/
theorem run_disciplined (window : UInt16) (maxPayload : Nat) (calls : List Call) :
    Disciplined maxPayload ((start window maxPayload).run calls).1
      ((start window maxPayload).run calls).2 := by
  have h := agrees_run window maxPayload calls
  generalize (start window maxPayload).run calls = r at h
  obtain ⟨done, n⟩ := r
  have hplaced : ∀ x s, (n.call x).1 = .ok (some s) → s.start = n.next ∧ s.Sound := by
    intro x s hs
    cases h.comes x with
    | refused _ heq | window _ _ heq =>
      rw [heq] at hs
      cases hs
    | numbered _ _ _ hstart hsound _ _ _ heq | acknowledged _ _ hstart hsound _ heq =>
      rw [heq] at hs
      cases hs
      exact ⟨hstart, hsound⟩
  have hanswered : ∀ x, refusal maxPayload done x = none →
      ∃ r, (n.call x).1 = .ok r ∧ x.AnsweredBy r := by
    intro x haccepted
    cases h.comes x with
    | refused hreason =>
      rw [haccepted] at hreason
      cases hreason
    | numbered _ _ _ _ _ _ _ hanswered heq | acknowledged _ _ _ _ hanswered heq
    | window _ hanswered heq => exact ⟨_, congrArg Prod.fst heq, hanswered⟩
  have hrefused : ∀ x e, (n.call x).1 = .error e ↔ refusal maxPayload done x = some e := by
    intro x e
    cases hreason : refusal maxPayload done x with
    | none =>
      obtain ⟨r, heq, -⟩ := hanswered x hreason
      simp [heq]
    | some e' =>
      cases h.comes x with
      | refused hreason' heq =>
        obtain rfl := Option.some.inj (hreason.symm.trans hreason')
        simp [heq, eq_comm]
      | numbered haccepted | acknowledged haccepted | window haccepted =>
        rw [hreason] at haccepted
        cases haccepted
  refine ⟨h.next_eq, h.next_le, fun s hs => ⟨h.stop_eq s hs, h.wrappedStop_eq hs⟩, h.one_fin,
    h.fin_last, fun hfin x hx => ?_, fun x s hs => (hplaced x s hs).1.trans h.next_eq, hanswered,
    fun x s hs => Segment.decode_encode (hplaced x s hs).2, fun _ => rfl, hrefused,
    fun x e he => ?_⟩
  · rw [hrefused]
    cases x with
    | data | finish => exact if_pos hfin
    | ack | setWindow => cases hx
  · cases h.comes x with
    | refused _ heq => rw [heq]
    | numbered _ _ _ _ _ _ _ _ heq | acknowledged _ _ _ _ _ heq | window _ _ heq =>
      rw [heq] at he
      cases he

end ReliableStream.Numbering
