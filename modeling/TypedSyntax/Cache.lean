import TypedSyntax.Converter.Decode
import TypedSyntax.Converter.Encode
import TypedSyntax.Store.Basic

/-!
# Caches of converters

Resolving a converter takes a look through the whole grammar, so converters are kept. A grammar is
known to a cache by its identity, which it gets when it is entered in a `Catalogue`. Identities are
64-bit numbers that are counted up from one, so that the first 2 ^ 64 grammars have different ones,
be they equal or not; after that the count starts anew.

A cache keeps its converters in a `RecencyStore`, with room for as many as its settings allow. What
the store does is the business of its laws. What is done here is to use it: a request is two steps,
between which other requests may run. `Cache.lookup` finds a converter that is there, and otherwise,
after a new one has been made (`Cache.make`), `Cache.store` looks again and stores the new one if
there still is none. Every converter that is made has a serial number of its own, by which one can
tell whether two requests were given the same one.

* `Cache.get`: both steps in one go.
* `Cache.encode`, `Cache.decode`: convert with the converter that the cache gives.
-/

namespace TypedSyntax

/-- A grammar with its identity. -/
structure Handle where
  id : UInt64
  grammar : Grammar

/-- The grammars that have been entered, in their order. -/
structure Catalogue where
  /-- The next identity. -/
  next : UInt64 := 1
  grammars : Array Grammar := #[]

/-- Enter a grammar under the next identity. -/
def Catalogue.enter (catalogue : Catalogue) (g : Grammar) : Handle × Catalogue :=
  (⟨catalogue.next, g⟩, ⟨catalogue.next + 1, catalogue.grammars.push g⟩)

/-- A converter that a cache has made. -/
structure CachedConverter where
  serial : Nat
  converter : Converter

/-- A cache of converters, which are kept in a store `σ`. -/
structure Cache (σ : Type) where
  settings : Settings
  /-- The converters, under the identities of their grammars. -/
  converters : σ
  /-- The number of converters that have been made. -/
  made : Nat := 0

namespace Cache

variable {σ : Type} [RecencyStore σ UInt64 CachedConverter]

/-- An empty cache. -/
def ofSettings (settings : Settings) : Cache σ :=
  { settings, converters := RecencyStore.new settings.capacity }

/-- The number of converters in the cache. -/
def size (cache : Cache σ) : Nat :=
  RecencyStore.size cache.converters

/-- The number of converters that there is room for. -/
def capacity (cache : Cache σ) : Nat :=
  RecencyStore.capacity cache.converters

/-- Whether there is a converter for a grammar. Asking does not count as a use. -/
def contains (cache : Cache σ) (g : Handle) : Bool :=
  RecencyStore.contains cache.converters g.id

/-- The cache without its converters. -/
def clear (cache : Cache σ) : Cache σ :=
  { cache with converters := RecencyStore.clear cache.converters }

/-- The converter for a grammar, if there is one, which is a use of it. -/
def lookup (cache : Cache σ) (g : Handle) : Option CachedConverter × Cache σ :=
  let (found, converters) := RecencyStore.get cache.converters g.id
  (found, { cache with converters })

/-- Make a converter with the settings of the cache. -/
def make (cache : Cache σ) (g : Handle) : Except ConvertError (CachedConverter × Cache σ) :=
  (Converter.resolve g.grammar none).map fun c =>
    (⟨cache.made, c.withSettings cache.settings⟩, { cache with made := cache.made + 1 })

/-- Look again for a converter, and store the new one if there still is none. -/
def store (cache : Cache σ) (g : Handle) (new : CachedConverter) : CachedConverter × Cache σ :=
  match cache.lookup g with
  | (some c, cache) => (c, cache)
  | (none, cache) =>
    (new, { cache with converters := RecencyStore.push cache.converters g.id new })

/-- The converter for a grammar, made if there is none. If it cannot be made nothing is stored. -/
def get (cache : Cache σ) (g : Handle) : Except ConvertError CachedConverter × Cache σ :=
  match cache.lookup g with
  | (some c, cache) => (.ok c, cache)
  | (none, cache) =>
    match cache.make g with
    | .error e => (.error e, cache)
    | .ok (new, cache) =>
      let (c, cache) := cache.store g new
      (.ok c, cache)

/-- The tree of a node, with the converter for a grammar. -/
def encode (cache : Cache σ) (g : Handle) (n : Node) : Except ConvertError Tree × Cache σ :=
  match cache.get g with
  | (.error e, cache) => (.error e, cache)
  | (.ok c, cache) => (c.converter.encode n, cache)

/-- The node of a tree, with the converter for a grammar. -/
def decode (cache : Cache σ) (g : Handle) (t : Tree) : Except ConvertError Node × Cache σ :=
  match cache.get g with
  | (.error e, cache) => (.error e, cache)
  | (.ok c, cache) => (c.converter.decode t, cache)

end Cache

end TypedSyntax
