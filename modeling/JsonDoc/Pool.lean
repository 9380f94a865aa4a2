import JsonDoc.Value.Basic

/-!
# `JsonDoc.Pool`: containers, kept for reuse

A pool keeps containers that are no longer needed, emptied, up to a capacity for each kind, and
hands them out again. All that it keeps is empty, so a pool is the number of containers of each
kind.
-/

set_option autoImplicit false

namespace JsonDoc

/-- A pool of empty containers. -/
structure Pool where
  idleObjects : Nat := 0
  idleArrays : Nat := 0
  capacity : Nat
  deriving DecidableEq, Repr

namespace Pool

/-- A pool that keeps nothing yet. -/
def ofCapacity (capacity : Nat) : Pool := { capacity := capacity }

/-- An empty object, taken from the pool if it has one. -/
def takeObject (pool : Pool) : Value × Pool :=
  (.object [], { pool with idleObjects := pool.idleObjects - 1 })

/-- An empty array, taken from the pool if it has one. -/
def takeArray (pool : Pool) : Value × Pool :=
  (.array [], { pool with idleArrays := pool.idleArrays - 1 })

/-- The pool with a container of one kind more, if the capacity allows it. -/
def kept (pool : Pool) (idle : Nat) : Nat := if idle < pool.capacity then idle + 1 else idle

/-- The pool with the outermost container of the value; what is in it, and a scalar, is dropped. -/
def put (pool : Pool) (v : Value) : Pool :=
  match v with
  | .object _ => { pool with idleObjects := pool.kept pool.idleObjects }
  | .array _ => { pool with idleArrays := pool.kept pool.idleArrays }
  | _ => pool

end Pool

end JsonDoc
