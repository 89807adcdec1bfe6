import Befunge.Arithmetic
import Befunge.Torus

/-! The playing surface: one byte on each of the 80 by 25 positions. It is the program and the
memory of the machine at once. -/

namespace Befunge

structure Playfield where
  rows : Vector (Vector UInt8 width) height
deriving DecidableEq

namespace Playfield

def space : UInt8 := 0x20

def ofFn (f : Position → UInt8) : Playfield :=
  ⟨Vector.ofFn fun y => Vector.ofFn fun x => f ⟨x, y⟩⟩

def blank : Playfield := ofFn fun _ => space

def get (field : Playfield) (p : Position) : UInt8 :=
  field.rows[p.y][p.x]

def set (field : Playfield) (p : Position) (b : UInt8) : Playfield :=
  ⟨field.rows.set p.y (field.rows[p.y].set p.x b)⟩

def map (f : UInt8 → UInt8) (field : Playfield) : Playfield :=
  ofFn fun p => f (field.get p)

def occupied (field : Playfield) : Nat :=
  (field.rows.toList.flatMap (·.toList)).countP (· != space)

@[simp] theorem get_ofFn (f : Position → UInt8) (p : Position) : (ofFn f).get p = f p := by
  simp [get, ofFn]

@[simp] theorem get_map (f : UInt8 → UInt8) (field : Playfield) (p : Position) :
    (field.map f).get p = f (field.get p) := by
  simp [map]

@[ext] theorem ext {field other : Playfield} (h : ∀ p, field.get p = other.get p) :
    field = other := by
  obtain ⟨rows⟩ := field
  obtain ⟨rows'⟩ := other
  congr 1
  refine Vector.ext fun y hy => Vector.ext fun x hx => ?_
  exact h ⟨⟨x, hx⟩, ⟨y, hy⟩⟩

theorem get_set (field : Playfield) (p q : Position) (b : UInt8) :
    (field.set p b).get q = if p = q then b else field.get q := by
  obtain ⟨px, py⟩ := p
  obtain ⟨qx, qy⟩ := q
  by_cases hy : py = qy
  · subst hy
    simp [get, set, Vector.getElem_set, Fin.ext_iff]
  · have hv : py.val ≠ qy.val := Fin.val_ne_of_ne hy
    simp [get, set, hy, hv]

end Playfield

end Befunge
