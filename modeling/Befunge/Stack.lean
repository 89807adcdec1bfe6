import Befunge.Arithmetic

/-! The data stack. Below its lowest value lie endless zeros: popping from an empty stack
yields zero, and every operation behaves as if those zeros had been pushed. -/

namespace Befunge

/-- The values, the topmost first. -/
structure Stack where
  values : List Int64
deriving DecidableEq, Repr

namespace Stack

def empty : Stack := ⟨[]⟩

def size (s : Stack) : Nat := s.values.length

/-- The values from the bottom upward. -/
def toList (s : Stack) : List Int64 := s.values.reverse

def ofList (values : List Int64) : Stack := ⟨values.reverse⟩

/-- The upper end of the stack, from the bottom upward. -/
def topmost (n : Nat) (s : Stack) : List Int64 := (s.values.take n).reverse

def top? (s : Stack) : Option Int64 := s.values.head?

def top (s : Stack) : Int64 := s.values.headD 0

def pop (s : Stack) : Stack := ⟨s.values.tail⟩

def push (v : Int64) (s : Stack) : Stack := ⟨v :: s.values⟩

def swap (s : Stack) : Stack :=
  s.pop.pop |>.push s.top |>.push s.pop.top

def duplicate (s : Stack) : Stack :=
  s.pop |>.push s.top |>.push s.top

/-- Whether the top is zero takes its place. -/
def negate (s : Stack) : Stack := s.pop.push (ofCondition (s.top = 0))

/-- The upper value is the right operand. -/
def operate (op : Operator) (s : Stack) : Stack :=
  s.pop.pop.push (op.apply s.pop.top s.top)

@[simp] theorem values_push (v : Int64) (s : Stack) : (s.push v).values = v :: s.values := rfl

@[simp] theorem values_pop (s : Stack) : s.pop.values = s.values.tail := rfl

@[simp] theorem top_push (v : Int64) (s : Stack) : (s.push v).top = v := rfl

@[simp] theorem pop_push (v : Int64) (s : Stack) : (s.push v).pop = s := rfl

@[simp] theorem top_empty : empty.top = 0 := rfl

@[simp] theorem pop_empty : empty.pop = empty := rfl

theorem top_eq_getD (s : Stack) : s.top = s.top?.getD 0 := List.headD_eq_head?_getD

theorem top?_eq_getLast? (s : Stack) : s.top? = s.toList.getLast? := by
  simp [top?, toList]

theorem topmost_eq_drop (n : Nat) (s : Stack) : s.topmost n = s.toList.drop (s.size - n) :=
  List.reverse_take

@[simp] theorem toList_ofList (values : List Int64) : (ofList values).toList = values := by
  simp [ofList, toList]

@[simp] theorem toList_push (v : Int64) (s : Stack) : (s.push v).toList = s.toList ++ [v] := by
  simp [toList]

end Stack

end Befunge
