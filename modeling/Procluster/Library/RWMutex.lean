import Mathlib.Data.Nat.Notation

/- A non-reentrant reader-writer lock inside a larger state, seen from one goroutine
   that runs alone. A request that cannot be granted would wait for a release that
   only the requester could make, so it is a deadlock. A plain mutex is the same lock
   without read requests. -/
namespace RWMutex
universe u
variable {State : Type u}

inductive Mutex where
  | unlocked
  | reading (others : ℕ)
  | writing
  deriving DecidableEq

inductive Fault where
  | deadlock
  | notHeld
  | panic (reason : String)
  deriving DecidableEq

/-- Where a state keeps the lock. -/
structure Place (State : Type u) where
  get : State → Mutex
  set : Mutex → State → State
  get_set : ∀ m s, get (set m s) = m
  set_set : ∀ m n s, set m (set n s) = set m s
  set_get : ∀ s, set (get s) s = s

variable (p : Place State)

def Place.lock (s : State) : Except Fault State :=
  match p.get s with
  | .unlocked => .ok (p.set .writing s)
  | .reading _ | .writing => .error .deadlock

def Place.unlock (s : State) : Except Fault State :=
  match p.get s with
  | .writing => .ok (p.set .unlocked s)
  | .unlocked | .reading _ => .error .notHeld

def Place.rLock (s : State) : Except Fault State :=
  match p.get s with
  | .unlocked => .ok (p.set (.reading 0) s)
  | .reading others => .ok (p.set (.reading (others + 1)) s)
  | .writing => .error .deadlock

def Place.rUnlock (s : State) : Except Fault State :=
  match p.get s with
  | .reading 0 => .ok (p.set .unlocked s)
  | .reading (others + 1) => .ok (p.set (.reading others) s)
  | .unlocked | .writing => .error .notHeld

/-- An update that leaves the lock alone. -/
def Place.Apart (b : State → State) : Prop := ∀ m s, b (p.set m s) = p.set m (b s)

variable {p} {s : State} {α : Type u}

theorem lock_bind (free : p.get s = .unlocked) (next : State → Except Fault α) :
    (p.lock s >>= next) = next (p.set .writing s) := by
  simp only [Place.lock, free]
  rfl

theorem unlock_bind (held : p.get s = .writing) (next : State → Except Fault α) :
    (p.unlock s >>= next) = next (p.set .unlocked s) := by
  simp only [Place.unlock, held]
  rfl

theorem unlock_writing (held : p.get s = .writing) : p.unlock s = .ok (p.set .unlocked s) := by
  simp only [Place.unlock, held]

/-- The holder of the write lock is never granted a second request of either kind. -/
theorem request_writing (held : p.get s = .writing) :
    p.lock s = .error .deadlock ∧ p.rLock s = .error .deadlock := by
  simp only [Place.lock, Place.rLock, held, and_self]

theorem set_unlocked (free : p.get s = .unlocked) : p.set .unlocked s = s := by
  rw [← free, p.set_get]

/-- Releasing the lock after an update that leaves it alone gives back the update. -/
theorem section_returns {b : State → State} (apart : p.Apart b)
    (free : p.get s = .unlocked) : p.set .unlocked (b (p.set .writing s)) = b s := by
  rw [apart, p.set_set, ← apart, set_unlocked free]

theorem write_section {b : State → State} (apart : p.Apart b)
    (free : p.get s = .unlocked) (next : State → Except Fault α) :
    (p.lock s >>= fun t => p.unlock (b t) >>= next) = next (b s) := by
  rw [lock_bind free, unlock_bind (by rw [apart, p.get_set]), section_returns apart free]

theorem rLock_bind (free : p.get s = .unlocked) (next : State → Except Fault α) :
    (p.rLock s >>= next) = next (p.set (.reading 0) s) := by
  simp only [Place.rLock, free]
  rfl

theorem rUnlock_read (free : p.get s = .unlocked) :
    p.rUnlock (p.set (.reading 0) s) = .ok s := by
  simp only [Place.rUnlock, p.get_set, p.set_set, set_unlocked free]

theorem read_section (free : p.get s = .unlocked) (next : State → State → Except Fault α) :
    (p.rLock s >>= fun t => p.rUnlock t >>= next t) = next (p.set (.reading 0) s) s := by
  rw [rLock_bind free, rUnlock_read free]
  rfl

section Returned
variable {next : State → Except Fault α} {t : State} {r : α}

theorem lock_returned (done : (p.lock s >>= next) = .ok r) : next (p.set .writing s) = .ok r := by
  unfold Place.lock at done
  split at done
  · exact done
  · cases done
  · cases done

theorem unlock_returned (done : (p.unlock s >>= next) = .ok r) : next (p.set .unlocked s) = .ok r := by
  unfold Place.unlock at done
  split at done
  · exact done
  · cases done
  · cases done

theorem rLock_returned (done : (p.rLock s >>= next) = .ok r) : ∃ m, next (p.set m s) = .ok r := by
  unfold Place.rLock at done
  split at done
  · exact ⟨_, done⟩
  · exact ⟨_, done⟩
  · cases done

theorem rUnlock_returned (done : (p.rUnlock s >>= next) = .ok r) : ∃ m, next (p.set m s) = .ok r := by
  unfold Place.rUnlock at done
  split at done
  · exact ⟨_, done⟩
  · exact ⟨_, done⟩
  · cases done
  · cases done

theorem unlock_last (done : p.unlock s = .ok t) : t = p.set .unlocked s := by
  have returned : (p.unlock s >>= Except.ok) = .ok t := by rw [done]; rfl
  exact (Except.ok.inj (unlock_returned returned)).symm

theorem rUnlock_last (done : p.rUnlock s = .ok t) : ∃ m, t = p.set m s := by
  have returned : (p.rUnlock s >>= Except.ok) = .ok t := by rw [done]; rfl
  obtain ⟨m, same⟩ := rUnlock_returned returned
  exact ⟨m, (Except.ok.inj same).symm⟩

end Returned

end RWMutex
