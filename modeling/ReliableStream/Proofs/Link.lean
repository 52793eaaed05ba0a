import Mathlib.Data.List.Induction
import ReliableStream.Link

/-!
# What goes through a link

Datagrams go into a link call by call, and a call may flush it. Here the link corrupts nothing; what
else happens to a datagram is up to the call.

* `Call.pass`: what a call does, for datagrams of any kind. A link does not look into what it
  carries (`call_carrying`, `pass_map`), so datagrams can be told apart by the numbers of the calls
  that they went in with.
* `Marked`: the numbers of those that came out, and of the one that is held. Nothing that came out
  is later than what is held, which is why only the next one can overtake it.
* `run_faithful`: after any calls, a link has lost and invented nothing, and no datagram was
  overtaken by more than one.
-/

namespace ReliableStream.Link

/-- A call of a link that corrupts nothing. -/
inductive Call where
  | carry (lost doubled delayed : Bool) (datagram : Bytes)
  | flush

/-- What a call brings out, and the link after it. -/
def call (l : Link) : Call → List Bytes × Link
  | .carry lost doubled delayed datagram => l.carry { lost, doubled, delayed } datagram
  | .flush => (l.flush.1.toList, l.flush.2)

/-- What each of the calls brings out, and the link after them. At first it holds nothing. -/
def run (calls : List Call) : List (List Bytes) × Link :=
  calls.foldl (fun (outs, l) x => (outs ++ [(l.call x).1], (l.call x).2)) ([], {})

/-- All that came out, in order, and then what is held. -/
def passed (calls : List Call) : List Bytes :=
  (run calls).1.flatten ++ (run calls).2.held.toList

@[simp] theorem run_nil : run [] = ([], {}) := rfl

theorem run_snoc (calls : List Call) (x : Call) :
    run (calls ++ [x]) =
      ((run calls).1 ++ [((run calls).2.call x).1], ((run calls).2.call x).2) := by
  simp [run]

/-! ## One call -/

namespace Call

/-- The datagram is lost. -/
def isLost : Call → Bool
  | carry lost .. => lost
  | flush => false

/-- The datagram is to be held back, if no other is. -/
def isDelayed : Call → Bool
  | carry lost _ delayed _ => !lost && delayed
  | flush => false

/-- How often the datagram is to come out. -/
def copies : Call → Nat
  | carry lost doubled .. => if lost then 0 else if doubled then 2 else 1
  | flush => 0

def datagram : Call → Bytes
  | carry _ _ _ datagram => datagram
  | flush => []

/-- The datagram as often as it is to come out. -/
def due (x : Call) : List Bytes := List.replicate x.copies x.datagram

/-- The same call with another datagram. -/
def carrying (datagram : Bytes) : Call → Call
  | carry lost doubled delayed _ => carry lost doubled delayed datagram
  | flush => flush

/-- What a call brings out and what is held after it, where its datagram is `own` and `held` was
held before. -/
def pass {α : Type} (x : Call) (own : α) (held : Option α) : List α × Option α :=
  if x.isLost then ([], held)
  else if x.isDelayed && held.isNone then (List.replicate (x.copies - 1) own, some own)
  else (List.replicate x.copies own ++ held.toList, none)

@[simp] theorem carrying_datagram (x : Call) : x.carrying x.datagram = x := by
  cases x <;> rfl

theorem copies_of_isLost {x : Call} (h : x.isLost = true) : x.copies = 0 := by
  cases x with
  | carry => exact if_pos h
  | flush => rfl

theorem isLost_of_isDelayed {x : Call} (h : x.isDelayed = true) : x.isLost = false := by
  cases x with
  | carry lost doubled delayed datagram =>
    obtain ⟨hlost, -⟩ := Bool.and_eq_true_iff.mp h
    simpa [isLost] using hlost
  | flush => rfl

theorem copies_pos_of_isDelayed {x : Call} (h : x.isDelayed = true) : 0 < x.copies := by
  cases x with
  | carry lost doubled delayed datagram =>
    obtain rfl : lost = false := isLost_of_isDelayed h
    cases doubled <;> simp [copies]
  | flush => cases h

variable {α β : Type} {x : Call}

theorem pass_cases (x : Call) (own : α) (held : Option α) :
    x.isLost = true ∧ x.pass own held = ([], held) ∨
      x.isLost = false ∧ x.pass own held = (List.replicate x.copies own ++ held.toList, none) ∨
      held = none ∧ ∃ n, x.copies = n + 1 ∧
        x.pass own held = (List.replicate n own, some own) := by
  unfold pass
  split
  next hlost => exact .inl ⟨hlost, rfl⟩
  next hlost =>
    split
    next hdelayed =>
      obtain ⟨hdelayed, hnone⟩ := Bool.and_eq_true_iff.mp hdelayed
      have hpos := copies_pos_of_isDelayed hdelayed
      exact .inr (.inr ⟨by simpa using hnone, x.copies - 1, by omega, rfl⟩)
    · exact .inr (.inl ⟨by simpa using hlost, rfl⟩)

theorem pass_none (h : x.isDelayed = true) (own : α) :
    x.pass own none = (List.replicate (x.copies - 1) own, some own) := by
  simp [pass, h, isLost_of_isDelayed h]

/-- While a datagram is held, the next that is not lost is not held back. -/
theorem pass_some (h : x.isLost = false) (own a : α) :
    x.pass own (some a) = (List.replicate x.copies own ++ [a], none) := by
  simp [pass, h]

theorem pass_map (x : Call) (f : α → β) (own : α) (held : Option α) :
    x.pass (f own) (held.map f) =
      ((x.pass own held).1.map f, (x.pass own held).2.map f) := by
  unfold pass
  rw [Option.isNone_map]
  split
  · rfl
  · split
    · simp
    · cases held <;> simp

/-- All there is afterwards, in order: the datagram of the call, and then what was held. -/
theorem pass_append (x : Call) (own : α) (held : Option α) :
    (x.pass own held).1 ++ (x.pass own held).2.toList =
      List.replicate x.copies own ++ held.toList := by
  rcases x.pass_cases own held with ⟨hlost, heq⟩ | ⟨-, heq⟩ | ⟨rfl, n, hcopies, heq⟩
  · rw [heq, copies_of_isLost hlost]
    rfl
  · rw [heq, Option.toList_none, List.append_nil]
  · rw [heq, hcopies, List.replicate_succ', Option.toList_none, List.append_nil]
    rfl

end Call

/-- The link does with the datagram of a call what it does with any other. -/
theorem call_carrying (l : Link) (x : Call) (datagram : Bytes) :
    l.call (x.carrying datagram) =
      ((x.pass datagram l.held).1, ⟨(x.pass datagram l.held).2⟩) := by
  obtain ⟨held⟩ := l
  cases x with
  | carry lost doubled delayed d =>
    cases lost with
    | true => rfl
    | false => cases delayed <;> cases held <;> rfl
  | flush => rfl

theorem call_eq (l : Link) (x : Call) :
    l.call x = ((x.pass x.datagram l.held).1, ⟨(x.pass x.datagram l.held).2⟩) := by
  rw [← call_carrying, x.carrying_datagram]

/-! ## Datagrams by their numbers -/

/-- The same calls with other datagrams: the one with the number `i` carries `contents i`. -/
def relabel (contents : Nat → Bytes) (calls : List Call) : List Call :=
  calls.mapIdx fun i x => x.carrying (contents i)

theorem relabel_snoc (contents : Nat → Bytes) (calls : List Call) (x : Call) :
    relabel contents (calls ++ [x]) =
      relabel contents calls ++ [x.carrying (contents calls.length)] := by
  simp [relabel]

/-- Of what is later than an item at most one is ahead of it. -/
def OvertakenByOne (origins : List Nat) : Prop :=
  ∀ ahead i, ahead ++ [i] <+: origins → ∀ j ∈ ahead, ∀ k ∈ ahead, i < j → i < k → j = k

theorem overtakenByOne_nil : OvertakenByOne [] := fun ahead i h => by simp at h

theorem overtakenByOne_snoc {origins : List Nat} {i : Nat} :
    OvertakenByOne (origins ++ [i]) ↔
      OvertakenByOne origins ∧ ∀ j ∈ origins, ∀ k ∈ origins, i < j → i < k → j = k := by
  constructor
  · intro h
    exact ⟨fun ahead k hk => h ahead k (hk.trans (List.prefix_append _ _)),
      h origins i (List.prefix_refl _)⟩
  · rintro ⟨h, hlast⟩ ahead k hk
    rcases List.prefix_concat_iff.mp hk with heq | hprefix
    · obtain ⟨rfl, hitem⟩ := List.append_inj' heq rfl
      obtain rfl := List.singleton_inj.mp hitem
      exact hlast
    · exact h ahead k hprefix

/-- Nothing is overtaken by what comes in last of all. -/
theorem OvertakenByOne.replicate {origins : List Nat} (h : OvertakenByOne origins) {n : Nat}
    (hn : ∀ i ∈ origins, i < n) (copies : Nat) :
    OvertakenByOne (origins ++ List.replicate copies n) := by
  induction copies with
  | zero => simpa using h
  | succ copies ih =>
    rw [List.replicate_succ', ← List.append_assoc, overtakenByOne_snoc]
    refine ⟨ih, fun j hj _ _ hlt => ?_⟩
    rcases List.mem_append.mp hj with hj | hj
    · exact absurd hlt (Nat.lt_asymm (hn j hj))
    · rw [List.eq_of_mem_replicate hj] at hlt
      exact absurd hlt (Nat.lt_irrefl n)

/-- The numbers of the calls whose datagrams came out, in order, and of the one whose datagram is
held. -/
structure Marked (calls : List Call) (out : List Nat) (held : Option Nat) : Prop where
  run_eq : ∀ contents, (run (relabel contents calls)).1.flatten = out.map contents ∧
    (run (relabel contents calls)).2.held = held.map contents
  lt_length : ∀ i ∈ out ++ held.toList, i < calls.length
  le_held : ∀ i ∈ held, ∀ j ∈ out, j ≤ i
  overtaken : OvertakenByOne (out ++ held.toList)

theorem marked_nil : Marked [] [] none where
  run_eq _ := ⟨rfl, rfl⟩
  lt_length i hi := by cases hi
  le_held i hi := by cases hi
  overtaken := overtakenByOne_nil

variable {calls : List Call} {out : List Nat} {held : Option Nat}

/-- What was held comes behind the datagram of the call, and that one alone is later. -/
theorem Marked.overtaken_append (h : Marked calls out held) (copies : Nat) :
    OvertakenByOne (out ++ List.replicate copies calls.length ++ held.toList) := by
  have hlt : ∀ i ∈ out, i < calls.length := fun i hi =>
    h.lt_length i (List.mem_append_left _ hi)
  cases held with
  | none =>
    have hout := h.overtaken
    rw [Option.toList_none, List.append_nil] at hout ⊢
    exact hout.replicate hlt copies
  | some i =>
    obtain ⟨hout, -⟩ := overtakenByOne_snoc.mp h.overtaken
    have hlast : ∀ j ∈ out ++ List.replicate copies calls.length, i < j → j = calls.length := by
      intro j hj hij
      rcases List.mem_append.mp hj with hj | hj
      · exact absurd hij (Nat.not_lt.mpr (h.le_held i rfl j hj))
      · exact List.eq_of_mem_replicate hj
    refine overtakenByOne_snoc.mpr ⟨hout.replicate hlt copies, fun j hj k hk hij hik => ?_⟩
    rw [hlast j hj hij, hlast k hk hik]

theorem Marked.snoc (h : Marked calls out held) (x : Call) :
    Marked (calls ++ [x]) (out ++ (x.pass calls.length held).1) (x.pass calls.length held).2 where
  run_eq contents := by
    obtain ⟨hout, hheld⟩ := h.run_eq contents
    rw [relabel_snoc, run_snoc, call_carrying, hheld, x.pass_map]
    simp [hout]
  lt_length i hi := by
    rw [List.append_assoc, x.pass_append, List.mem_append, List.mem_append] at hi
    have hold : i ∈ out ++ held.toList → i < calls.length := h.lt_length i
    rw [List.length_append, List.length_singleton]
    rcases hi with hi | hi | hi
    · exact Nat.lt_succ_of_lt (hold (List.mem_append_left _ hi))
    · rw [List.eq_of_mem_replicate hi]
      exact Nat.lt_succ_self _
    · exact Nat.lt_succ_of_lt (hold (List.mem_append_right _ hi))
  le_held i hi j hj := by
    rcases x.pass_cases calls.length held with ⟨-, heq⟩ | ⟨-, heq⟩ | ⟨-, n, -, heq⟩
    · rw [heq] at hi hj
      exact h.le_held i hi j (by simpa using hj)
    · rw [heq] at hi
      cases hi
    · rw [heq] at hi hj
      cases hi
      rcases List.mem_append.mp hj with hj | hj
      · exact Nat.le_of_lt (h.lt_length j (List.mem_append_left _ hj))
      · exact Nat.le_of_eq (List.eq_of_mem_replicate hj)
  overtaken := by
    rw [List.append_assoc, x.pass_append, ← List.append_assoc]
    exact h.overtaken_append x.copies

theorem exists_marked (calls : List Call) : ∃ out held, Marked calls out held := by
  induction calls using List.reverseRecOn with
  | nil => exact ⟨[], none, marked_nil⟩
  | append_singleton calls x ih =>
    obtain ⟨out, held, h⟩ := ih
    exact ⟨_, _, h.snoc x⟩

/-! ## After any calls -/

theorem passed_snoc (calls : List Call) (x : Call) :
    passed (calls ++ [x]) = (run calls).1.flatten ++ (x.due ++ (run calls).2.held.toList) := by
  have hpass := x.pass_append x.datagram (run calls).2.held
  rw [passed, run_snoc, call_eq, Call.due, ← hpass]
  simp

/-- Nothing is invented and nothing gets lost but by a call that says so. -/
theorem passed_perm (calls : List Call) : (passed calls).Perm (calls.flatMap Call.due) := by
  induction calls using List.reverseRecOn with
  | nil => rfl
  | append_singleton calls x ih =>
    rw [passed_snoc, List.flatMap_append, List.flatMap_singleton]
    have hlast : (x.due ++ (run calls).2.held.toList).Perm ((run calls).2.held.toList ++ x.due) :=
      List.perm_append_comm
    refine (hlast.append_left _).trans ?_
    rw [← List.append_assoc, ← passed]
    exact ih.append_right x.due

/-- Nothing comes out as long as nothing goes in. -/
theorem run_append_lost (calls lost : List Call) (h : ∀ y ∈ lost, y.isLost = true) :
    run (calls ++ lost) = ((run calls).1 ++ List.replicate lost.length [], (run calls).2) := by
  induction lost using List.reverseRecOn with
  | nil => simp
  | append_singleton lost y ih =>
    have hy := h y (by simp)
    have hcall : (run calls).2.call y = ([], (run calls).2) := by
      rw [call_eq, Call.pass, if_pos hy]
    rw [← List.append_assoc, run_snoc, ih fun y hy => h y (List.mem_append_left _ hy), hcall,
      List.length_append, List.length_singleton, List.replicate_succ', List.append_assoc]

/-- What holds of a link after the calls. -/
structure Faithful (calls : List Call) : Prop where
  /-- What came out, and the one datagram that may be held, is what went in and was not lost, each
  once or, if it was doubled, twice. -/
  conserved : (passed calls).Perm (calls.flatMap Call.due)
  /-- A datagram that is to be delayed is held if there is room. Its other copy is not. -/
  held_back : (run calls).2.held = none → ∀ x : Call, x.isDelayed = true →
    run (calls ++ [x]) = ((run calls).1 ++ [x.due.tail], { held := some x.datagram })
  /-- What is held comes out at the next call that is not lost, right behind what that brings. -/
  released : ∀ d, (run calls).2.held = some d → ∀ lost : List Call,
    (∀ y ∈ lost, y.isLost = true) → ∀ x : Call, x.isLost = false →
      run (calls ++ lost ++ [x]) =
        ((run calls).1 ++ List.replicate lost.length [] ++ [x.due ++ [d]], {})
  /-- Whatever the datagrams are, it is those of the calls with the numbers `origins`, and none is
  overtaken by more than one that is later. -/
  overtaken : ∃ origins, (∀ contents, passed (relabel contents calls) = origins.map contents) ∧
    OvertakenByOne origins

/-- Whatever calls were made, a link has neither invented nor lost a datagram. It holds one at
most, and not for long. -/
theorem run_faithful (calls : List Call) : Faithful calls where
  conserved := passed_perm calls
  held_back hnone x hx := by
    rw [run_snoc, call_eq, hnone, Call.pass_none hx, Call.due, List.tail_replicate]
  released d hd lost hlost x hx := by
    rw [run_snoc, run_append_lost calls lost hlost, call_eq, hd, Call.pass_some hx, Call.due]
  overtaken := by
    obtain ⟨out, held, h⟩ := exists_marked calls
    refine ⟨out ++ held.toList, fun contents => ?_, h.overtaken⟩
    obtain ⟨hout, hheld⟩ := h.run_eq contents
    rw [passed, hout, hheld, List.map_append]
    cases held <;> rfl

/-- The first is doubled and held back, the second lost, and the third can not be held back. -/
example : (run [.carry false true true [1], .carry true false false [2],
    .carry false false true [3], .flush]).1 = [[[1]], [], [[3], [1]], []] := by
  decide

end ReliableStream.Link
