import JsonDoc.Json.Document

/-!
# `JsonDoc.Settings`: limits and their defaults

The limits of evaluation, and the settings from which the limits, the size of a path cache and
the capacity of a container pool are taken.
-/

set_option autoImplicit false

namespace JsonDoc

/-- How many paths a cache keeps where nothing else is asked for. -/
def defaultCacheSize : Nat := 1000

/-- How many containers of each kind a pool keeps where nothing else is asked for. -/
def defaultPoolCapacity : Nat := 256

/-- By how many items an assignment may lengthen an array where nothing else is asked for. -/
def defaultMaxArrayGrowth : Nat := 2 ^ 16

/-- How many items an array may have where nothing else is asked for: memory of more bytes than this
can never be had, and an item takes one at least. -/
def defaultMaxArrayLength : Nat := 2 ^ 63 - 1

/-- The limits of evaluation. -/
structure Limits where
  /-- How many steps the descents of a path may take in all. -/
  maxDepth : Nat := defaultMaxDepth
  /-- By how many items an assignment may lengthen an array. -/
  maxArrayGrowth : Nat := defaultMaxArrayGrowth
  /-- How many items an array may have before memory for more is refused. This is not a setting: it
  is up to the machine. -/
  maxArrayLength : Nat := defaultMaxArrayLength
  deriving DecidableEq, Repr

/-- Whether an array of `length` items cannot be lengthened so that there is an item at `place`. -/
def Limits.refuses (limits : Limits) (length place : Nat) : Bool :=
  limits.maxArrayGrowth ≤ place - length || limits.maxArrayLength ≤ place

/-- An array is lengthened by at most as many items as the limits allow. -/
theorem Limits.lt_of_refuses_eq_false {limits : Limits} {length place : Nat}
    (h : limits.refuses length place = false) : place < length + limits.maxArrayGrowth := by
  rw [refuses, Bool.or_eq_false_iff, decide_eq_false_iff_not] at h
  omega

/-- What can be set. -/
structure Settings where
  maxDepth : Nat := defaultMaxDepth
  cacheSize : Nat := defaultCacheSize
  poolCapacity : Nat := defaultPoolCapacity
  maxArrayGrowth : Nat := defaultMaxArrayGrowth
  deriving DecidableEq, Repr

/-- The limits of evaluation that are set. -/
def Settings.limits (settings : Settings) : Limits :=
  { maxDepth := settings.maxDepth, maxArrayGrowth := settings.maxArrayGrowth }

end JsonDoc
