import WireCodec.CompileError

/-! Results kept by type identity. The first result for an identity, be it a failure, is the one
every later request gets. A compilation that was given up leaves none. Requests are counted by
whether they found a result. -/
namespace WireCodec

structure CacheStats where
  hits : Nat
  misses : Nat
  compiles : Nat
  deriving DecidableEq

/-- Published results are listed latest first. -/
structure Cache (α : Type) where
  entries : List (Nat × Except CompileError α)
  abandoned : List Nat
  stats : CacheStats

namespace Cache

variable {α σ : Type}

def empty : Cache α := ⟨[], [], ⟨0, 0, 0⟩⟩

def size (c : Cache α) : Nat := c.entries.length + c.abandoned.length

def get? (c : Cache α) (id : Nat) : Option (Except CompileError α) := c.entries.lookup id

def hit (c : Cache α) : Cache α := { c with stats := { c.stats with hits := c.stats.hits + 1 } }

def miss (c : Cache α) : Cache α :=
  { c with stats := ⟨c.stats.hits, c.stats.misses + 1, c.stats.compiles + 1⟩ }

def publish (c : Cache α) (id : Nat) (result : Except CompileError α) : Cache α :=
  { c with entries := (id, result) :: c.entries, abandoned := c.abandoned.erase id }

def abandon (c : Cache α) (id : Nat) : Cache α :=
  { c with abandoned := c.abandoned.insert id }

/-- `compile` may give up, and then there is no result. -/
def fetch (c : Cache α) (id : Nat) (compile : σ → Option (Except CompileError α) × σ)
    (state : σ) : Option (Except CompileError α) × Cache α × σ :=
  match c.get? id with
  | some result => (some result, c.hit, state)
  | none =>
    let (result, state) := compile state
    match result with
    | some result => (some result, c.miss.publish id result, state)
    | none => (none, c.miss.abandon id, state)

end Cache

end WireCodec
