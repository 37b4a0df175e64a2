import Stepwise.Value.Heap

/-!
# Deep copies

A copy shares no cell with what it was made from. Inside one copy sharing is kept: a cell that is met twice is copied
once. Items that refer to nothing are their own copies.
-/

namespace Stepwise

/-- A copy under way: the heap it extends, and the new address of each cell that has been copied. -/
structure Copying where
  heap : Heap
  copied : Std.TreeMap Addr Addr

namespace Copying

def items (copyOne : Value → StateM Copying Value) (vs : Sequence Value) : StateM Copying (Sequence Value) := do
  if vs.any Value.isRef then return .ofList (← vs.toList.mapM copyOne) else return vs

/-- Copy the properties of an object, each by the given computation. -/
def properties (copyOne : Value → StateM Copying Value) (entries : OrderedMap Value) :
    StateM Copying (OrderedMap Value) := do
  if entries.entries.any (·.2.isRef) then entries.mapState copyOne else return entries

def value : Nat → Value → StateM Copying Value
  | 0, .ref _ => return .undefined
  | depth + 1, .ref a => do
    let s ← get
    match s.copied[a]? with
    | some b => return .ref b
    | none =>
      let cell ← match s.heap.cell? a with
        | some (.array vs _) => do pure (Cell.array (← items (value depth) vs) 0)
        | some (.object entries) => do pure (Cell.object (← properties (value depth) entries))
        | none => pure (Cell.object .empty)
      let s ← get
      let b := s.heap.next
      set (Copying.mk (s.heap.alloc cell).2 (s.copied.insert a b))
      return .ref b
  | _, v => return v

end Copying

namespace Heap

def copy (h : Heap) (v : Value) : Value × Heap :=
  let (v, s) := (Copying.value h.next v).run ⟨h, {}⟩
  (v, s.heap)

/-- Deep copies of several values made as one copy, so that sharing among them is kept. -/
def copyTogether (h : Heap) (vs : Sequence Value) : Sequence Value × Heap :=
  let (vs, s) := (Copying.items (Copying.value h.next) vs).run ⟨h, {}⟩
  (vs, s.heap)

def copyEach (h : Heap) : List Value → List Value × Heap
  | [] => ([], h)
  | v :: rest =>
    let (v, h) := h.copy v
    let (vs, h) := h.copyEach rest
    (v :: vs, h)

end Heap

end Stepwise
