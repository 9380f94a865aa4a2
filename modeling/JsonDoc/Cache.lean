import JsonDoc.Path.Parser

/-!
# `JsonDoc.Cache`: compiled paths, kept for reuse

A cache keeps the paths that were compiled through it, oldest first, up to a size. Compiling a
text that it keeps gives the instance made for it before; compiling another text makes a new
instance, which is kept after the oldest ones have made room. A cache of size zero keeps
nothing, and a text that cannot be read leaves no trace.

Instances are numbered in the order in which they were made, so that two answers can be told to
be one shared instance or two.
-/

set_option autoImplicit false

namespace JsonDoc

/-- A compiled path that several callers may share. -/
structure Instance where
  /-- How many instances were made before it. -/
  serial : Nat
  path : Path
  deriving DecidableEq, Repr

/-- A cache of compiled paths. -/
structure Cache where
  /-- The instances kept, oldest first. -/
  entries : List Instance := []
  /-- How many instances are kept at most after one is added. -/
  maxSize : Nat
  /-- How many instances were made. -/
  made : Nat := 0
  deriving DecidableEq, Repr

/-- How full a cache is. -/
structure CacheStats where
  size : Nat
  maxSize : Nat
  deriving DecidableEq, Repr

namespace Cache

/-- A cache that keeps nothing yet. -/
def ofSize (maxSize : Nat) : Cache := { maxSize := maxSize }

/-- The instance kept for a text. -/
def find? (cache : Cache) (text : String) : Option Instance :=
  cache.entries.find? fun entry => entry.path.text == text

/-- The cache with a new instance of the path, kept if the size allows it. -/
def add (cache : Cache) (path : Path) : Instance × Cache :=
  let fresh : Instance := ⟨cache.made, path⟩
  let entries :=
    if cache.maxSize = 0 then cache.entries
    -- The oldest go until one more fits.
    else cache.entries.drop (cache.entries.length + 1 - cache.maxSize) ++ [fresh]
  (fresh, { cache with entries := entries, made := cache.made + 1 })

/-- The instance of the path that a text stands for: the one kept for it, or else a new one. -/
def compile (text : String) : StateM Cache (Except Path.Fault Instance) := fun cache =>
  match cache.find? text with
  | some entry => (.ok entry, cache)
  | none =>
    match Path.compile text with
    | .error fault => (.error fault, cache)
    | .ok path =>
      let (fresh, cache) := cache.add path
      (.ok fresh, cache)

/-- How full the cache is. -/
def stats (cache : Cache) : CacheStats := ⟨cache.entries.length, cache.maxSize⟩

/-- The cache with another size, which applies from the next addition on. -/
def resize (cache : Cache) (maxSize : Nat) : Cache := { cache with maxSize := maxSize }

/-- The cache without its entries. -/
def clear (cache : Cache) : Cache := { cache with entries := [] }

end Cache

end JsonDoc
