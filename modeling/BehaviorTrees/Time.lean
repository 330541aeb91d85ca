import BehaviorTrees.Word

/-!
# Time

Times are counted in milliseconds.  A `Clock` is read against the world it stands in, and a
reading may move that world on, so a clock that runs by itself, one that is only moved by hand
and one that the nodes of a tree move are all of this type.
-/

namespace BehaviorTrees

/-- Reading gives the time and the world after the reading. -/
structure Clock (σ : Type) where
  read : σ → Nat × σ

namespace Clock

/-- A clock that shows what the world holds and stays as it is when read. -/
def showing (time : σ → Nat) : Clock σ := ⟨fun s => (time s, s)⟩

@[simp] theorem read_showing (time : σ → Nat) (s : σ) : (showing time).read s = (time s, s) := rfl

end Clock

/-- A time of 64 bits that moves only when it is told to. -/
structure HandTime where
  now : Nat := 0
deriving DecidableEq

namespace HandTime

/-- Moves on, starting over at zero after the last time there is. -/
def advance (t : HandTime) (ms : Nat) : HandTime := ⟨(t.now + ms) % Word.count⟩

def set (_ : HandTime) (ms : Nat) : HandTime := ⟨ms⟩

end HandTime
end BehaviorTrees
