/-!
# Queues

Items leave a queue in the order in which they came. A queue is kept as two lists, the first items
in order and the others with the last one first, so that both ends are at hand.

`toList` is what the queue holds, in order. What an operation does is said through it:
`toList_push`, `popIf?_eq_some`, `toList_dropWhile` and so on.
-/

namespace ReliableStream

structure Queue (α : Type) where
  /-- The first items, in order. -/
  front : List α := []
  /-- The items after those, the last one first. -/
  back : List α := []
  /-- The first item, if there is one, is in front. -/
  back_eq_nil : front = [] → back = [] := by simp
  deriving DecidableEq

namespace Queue

variable {α : Type}

/-- The items in order. -/
def toList (q : Queue α) : List α :=
  match q.back with
  | [] => q.front
  | back => q.front ++ back.reverse

/-- The queue with these items. -/
def ofList (items : List α) : Queue α := { front := items, back_eq_nil := fun _ => rfl }

/-- The queue without items. -/
def empty : Queue α := ofList []

/-- The queue with the items `front` and, behind them, `back` from its end on. -/
def ofParts (front back : List α) : Queue α :=
  match front with
  | [] => ofList back.reverse
  | a :: front => { front := a :: front, back }

def isEmpty (q : Queue α) : Bool := q.front.isEmpty

def size (q : Queue α) : Nat := q.front.length + q.back.length

def head? (q : Queue α) : Option α := q.front.head?

def last? (q : Queue α) : Option α :=
  match q.back with
  | [] => q.front.getLast?
  | a :: _ => some a

/-- The queue with one more item at its end. -/
def push (q : Queue α) (a : α) : Queue α := ofParts q.front (a :: q.back)

/-- The queue with the items at its end. -/
def pushAll (q : Queue α) (items : List α) : Queue α := items.foldl push q

/-- The queue with one more item before the others. -/
def pushFront (q : Queue α) (a : α) : Queue α := { front := a :: q.front, back := q.back }

/-- Takes the first item, if `p` holds of it. -/
def popIf? (q : Queue α) (p : α → Bool) : Option (α × Queue α) :=
  match q.front with
  | [] => none
  | a :: front => if p a then some (a, ofParts front q.back) else none

/-- Changes the first item. -/
def modifyHead (q : Queue α) (f : α → α) : Queue α :=
  match q.front with
  | [] => q
  | a :: front => { front := f a :: front, back := q.back }

/-- The items up to the first that `p` does not hold of. -/
def takeWhile (q : Queue α) (p : α → Bool) : List α :=
  if q.front.all p then q.front ++ q.back.reverse.takeWhile p else q.front.takeWhile p

/-- The items from the first on that `p` does not hold of. -/
def dropWhile (q : Queue α) (p : α → Bool) : Queue α :=
  match q.front.dropWhile p with
  | [] => ofList (q.back.reverse.dropWhile p)
  | a :: front => { front := a :: front, back := q.back }

theorem toList_eq (q : Queue α) : q.toList = q.front ++ q.back.reverse := by
  unfold toList
  split <;> simp_all

@[simp] theorem toList_empty : (empty : Queue α).toList = [] := rfl

@[simp] theorem toList_ofList (items : List α) : (ofList items).toList = items := rfl

@[simp] theorem toList_ofParts (front back : List α) :
    (ofParts front back).toList = front ++ back.reverse := by
  cases front with
  | nil => simp [ofParts]
  | cons a front => simp [ofParts, toList_eq]

@[simp] theorem isEmpty_eq (q : Queue α) : q.isEmpty = q.toList.isEmpty := by
  have h := q.back_eq_nil
  cases hf : q.front <;> simp_all [isEmpty, toList_eq]

@[simp] theorem size_eq (q : Queue α) : q.size = q.toList.length := by
  simp [size, toList_eq]

@[simp] theorem head?_eq (q : Queue α) : q.head? = q.toList.head? := by
  have h := q.back_eq_nil
  cases hf : q.front <;> simp_all [head?, toList_eq]

@[simp] theorem last?_eq (q : Queue α) : q.last? = q.toList.getLast? := by
  unfold last?
  split <;> simp_all [toList_eq]

@[simp] theorem toList_push (q : Queue α) (a : α) : (q.push a).toList = q.toList ++ [a] := by
  simp [push, toList_eq q]

@[simp] theorem toList_pushAll (q : Queue α) (items : List α) :
    (q.pushAll items).toList = q.toList ++ items := by
  unfold pushAll
  induction items generalizing q with
  | nil => simp
  | cons a items ih => simp [ih]

@[simp] theorem toList_pushFront (q : Queue α) (a : α) :
    (q.pushFront a).toList = a :: q.toList := by
  simp [pushFront, toList_eq]

theorem popIf?_eq_none_iff {q : Queue α} {p : α → Bool} :
    q.popIf? p = none ↔ ∀ a ∈ q.toList.head?, p a = false := by
  rw [← head?_eq]
  unfold popIf? head?
  split <;> simp_all

theorem popIf?_eq_some {q r : Queue α} {p : α → Bool} {a : α} (h : q.popIf? p = some (a, r)) :
    p a ∧ q.toList = a :: r.toList := by
  unfold popIf? at h
  split at h
  · contradiction
  next b front hf =>
    split at h
    next hb =>
      obtain ⟨rfl, rfl⟩ : b = a ∧ ofParts front q.back = r := by simpa using h
      exact ⟨hb, by simp [toList_eq q, hf]⟩
    · contradiction

@[simp] theorem toList_modifyHead (q : Queue α) (f : α → α) :
    (q.modifyHead f).toList = q.toList.modifyHead f := by
  have h := q.back_eq_nil
  unfold modifyHead
  split <;> simp_all [toList_eq]

@[simp] theorem takeWhile_eq (q : Queue α) (p : α → Bool) :
    q.takeWhile p = q.toList.takeWhile p := by
  have hall (l : List α) : l.all p ↔ (l.takeWhile p).length = l.length := by
    induction l with
    | nil => simp
    | cons a l ih => by_cases h : p a <;> simp [h, ih]
  simp [takeWhile, toList_eq, List.takeWhile_append, hall]

@[simp] theorem toList_dropWhile (q : Queue α) (p : α → Bool) :
    (q.dropWhile p).toList = q.toList.dropWhile p := by
  rw [toList_eq q, List.dropWhile_append]
  unfold dropWhile
  split
  next h => simp [h]
  next h => simp [h, toList_eq]

theorem dropWhile_ofList (items : List α) (p : α → Bool) :
    (ofList items).dropWhile p = ofList (items.dropWhile p) := by
  unfold dropWhile ofList
  simp only [List.reverse_nil, List.dropWhile_nil]
  split
  next h => simp only [h]
  next h => simp only [h]

/-- To drop less first makes no difference. -/
theorem dropWhile_dropWhile (q : Queue α) {p p' : α → Bool} (h : ∀ a, p a → p' a) :
    (q.dropWhile p).dropWhile p' = q.dropWhile p' := by
  have hlist (l : List α) : (l.dropWhile p).dropWhile p' = l.dropWhile p' := by
    induction l with
    | nil => rfl
    | cons a l ih =>
      by_cases ha : p a
      · rw [List.dropWhile_cons_of_pos ha, List.dropWhile_cons_of_pos (h a ha), ih]
      · rw [List.dropWhile_cons_of_neg ha]
  have hfront := hlist q.front
  conv => lhs; arg 1; unfold dropWhile
  cases hf : q.front.dropWhile p with
  | nil =>
    rw [hf, List.dropWhile_nil] at hfront
    rw [dropWhile_ofList, hlist]
    simp only [dropWhile, ← hfront]
  | cons a front =>
    rw [hf] at hfront
    simp only [dropWhile, hfront]

end Queue

end ReliableStream
