import Procluster.ConnectedClients
import Procluster.Library.ReferenceCounts

/-!
Package ws, handler.go: how many connections one address may hold. checkIPLimit and
releaseIP keep the handler's lock from their start to their end, so each is one step. A
connection is in flight until its upgrade is answered and open until its ReadPump ends;
ReadPump ends with Unregister, and the slot is given back after that call. A client that
hangs up while its Register waits for the hub counts as open, since its ReadPump has not
started. An address is the string that extractIP returned.
-/
namespace ConnectionLimit
open KeyedFold EventRuns RWMutex ReferenceCounts WsHub

def Loopback (ip : String) : Prop := ip = "127.0.0.1" ∨ ip = "::1" ∨ ip = "localhost"

instance (ip : String) : Decidable (Loopback ip) := inferInstanceAs (Decidable (_ ∨ _ ∨ _))

structure Handler where
  hub : Hub
  connsByIP : List (String × ℤ)
  maxPerIP : ℤ

def newHandler (hub : Hub) (maxConnsPerIP : ℤ) : Handler where
  hub := hub
  connsByIP := []
  maxPerIP := if maxConnsPerIP = 0 then 10 else maxConnsPerIP

def checkIPLimit (ip : String) (h : Handler) : Bool × Handler :=
  if Loopback ip then (true, h)
  else if h.maxPerIP ≤ count ip h.connsByIP then (false, h)
  else (true, { h with connsByIP := upsert ip (fun old => old.getD 0 + 1) h.connsByIP })

/-- The count goes down for every address, also for one that checkIPLimit did not count. -/
def releaseIP (ip : String) (h : Handler) : Handler :=
  let lower := upsert ip (fun old => old.getD 0 - 1) h.connsByIP
  { h with connsByIP := if count ip lower ≤ 0 then erase ip lower else lower }

inductive Stage where
  | upgrading
  | upgraded
  | reading
  | left
  deriving DecidableEq

structure Conn where
  ip : String
  stage : Stage

structure Server extends Handler where
  conns : List (ClientId × Conn)

def newServer (hub : Hub) (maxConnsPerIP : ℤ) : Server := ⟨newHandler hub maxConnsPerIP, []⟩

inductive Event where
  | attempt (c : ClientId) (ip : String)
  | upgradeFailed (c : ClientId)
  | upgraded (c : ClientId)
  | registered (c : ClientId)
  | disconnected (c : ClientId)
  | hub (op : Op)

def readPumpEnd (c : ClientId) (h : Hub) : Hub × Bool :=
  match unregister c h with
  | .ok h => (h, true)
  | .error _ => ((removeClient c h).toOption.getD h, false)

def staged (s : Server) (c : ClientId) (stage : Stage) : Option Conn :=
  (find c s.conns).filter fun conn => conn.stage = stage

def Server.move (s : Server) (c : ClientId) (conn : Conn) (stage : Stage) : Server :=
  { s with conns := upsert c (fun _ => { conn with stage := stage }) s.conns }

def Server.giveBack (s : Server) (c : ClientId) (ip : String) : Server :=
  { toHandler := releaseIP ip s.toHandler, conns := erase c s.conns }

/-- ServeHTTP and its goroutines, one call of the handler or of the hub after the other. -/
def step (pumpEnd : ClientId → Hub → Hub × Bool) (s : Server) : Event → Option Server
  | .attempt c ip =>
    if c ∈ keys s.conns then none
    else match checkIPLimit ip s.toHandler with
      | (true, h) => some { toHandler := h, conns := upsert c (fun _ => ⟨ip, .upgrading⟩) s.conns }
      | (false, h) => some { s with toHandler := h }
  | .upgradeFailed c => (staged s c .upgrading).map fun conn => s.giveBack c conn.ip
  | .upgraded c => (staged s c .upgrading).map fun conn => s.move c conn .upgraded
  | .registered c => do
    let conn ← staged s c .upgraded
    let hub ← (register c s.hub).toOption
    return { s.move c conn .reading with hub := hub }
  | .disconnected c => do
    let conn ← staged s c .reading
    let left : Server := { s with hub := (pumpEnd c s.hub).1 }
    if (pumpEnd c s.hub).2 then return left.giveBack c conn.ip
    else return left.move c conn .left
  | .hub op => (exec s.hub op).toOption.map fun hub => { s with hub := hub }

def openConns (s : Server) (ip : String) : ℕ :=
  tally (fun conn => conn.ip = ip ∧ (conn.stage = .upgraded ∨ conn.stage = .reading)) s.conns

def inFlight (s : Server) (ip : String) : ℕ :=
  tally (fun conn => conn.ip = ip ∧ conn.stage = .upgrading) s.conns

def departed (s : Server) (ip : String) : ℕ :=
  tally (fun conn => conn.ip = ip ∧ conn.stage = .left) s.conns

/-- The counts are exact, the limit holds, and the loopback addresses are exempt. -/
structure Accounted (s : Server) : Prop where
  counted : ∀ ip, ¬ Loopback ip → count ip s.connsByIP = openConns s ip + inFlight s ip
  limited : ∀ ip, ¬ Loopback ip → count ip s.connsByIP ≤ s.maxPerIP
  refused : ∀ ip, ¬ Loopback ip →
    ((checkIPLimit ip s.toHandler).1 = false ↔ s.maxPerIP ≤ openConns s ip + inFlight s ip)
  positive : ∀ p ∈ s.connsByIP, 0 < p.2
  exempt : ∀ ip, Loopback ip → (checkIPLimit ip s.toHandler).1 = true ∧ ip ∉ keys s.connsByIP

/-- The ReadPump that ends gets out of its deferred call, or its address is not counted. -/
def Returned (pumpEnd : ClientId → Hub → Hub × Bool) (s : Server) : Event → Prop
  | .disconnected c => ∀ conn ∈ find c s.conns, ¬ Loopback conn.ip → (pumpEnd c s.hub).2 = true
  | _ => True

def Kept (s : Server) : Event → Prop
  | .disconnected c => ∀ conn ∈ find c s.conns, Loopback conn.ip
  | _ => True

theorem releaseIP_connsByIP (ip : String) (h : Handler) :
    (releaseIP ip h).connsByIP = release ip h.connsByIP := rfl

theorem checkIPLimit_refuses (ip : String) (h : Handler) :
    (checkIPLimit ip h).1 = false ↔ ¬ Loopback ip ∧ h.maxPerIP ≤ count ip h.connsByIP := by
  unfold checkIPLimit
  split
  · simp [*]
  · split
    · simp [*]
    · simp [*]

inductive Outcome (pumpEnd : ClientId → Hub → Hub × Bool) (s : Server) : Event → Server → Prop where
  | unchanged (e : Event) (hub : Hub) (quiet : ∀ c, e ≠ .disconnected c) :
      Outcome pumpEnd s e { s with hub := hub }
  | uncounted (c : ClientId) (ip : String) (fresh : find c s.conns = none) (loopback : Loopback ip) :
      Outcome pumpEnd s (.attempt c ip)
        { s with conns := upsert c (fun _ => ⟨ip, .upgrading⟩) s.conns }
  | counted (c : ClientId) (ip : String) (fresh : find c s.conns = none) (remote : ¬ Loopback ip)
      (room : count ip s.connsByIP < s.maxPerIP) :
      Outcome pumpEnd s (.attempt c ip)
        { s with
          connsByIP := acquire ip s.connsByIP
          conns := upsert c (fun _ => ⟨ip, .upgrading⟩) s.conns }
  | moved (e : Event) (hub : Hub) (c : ClientId) (conn : Conn) (stage : Stage)
      (quiet : ∀ c, e ≠ .disconnected c) (found : find c s.conns = some conn)
      (present : conn.stage ≠ .left) (stays : stage ≠ .left) :
      Outcome pumpEnd s e { s.move c conn stage with hub := hub }
  | released (e : Event) (hub : Hub) (c : ClientId) (conn : Conn)
      (found : find c s.conns = some conn) (present : conn.stage ≠ .left)
      (returned : ∀ d, e = .disconnected d → (pumpEnd d s.hub).2 = true) :
      Outcome pumpEnd s e { s.giveBack c conn.ip with hub := hub }
  | stuck (hub : Hub) (c : ClientId) (conn : Conn) (found : find c s.conns = some conn)
      (present : conn.stage ≠ .left) (waits : (pumpEnd c s.hub).2 = false) :
      Outcome pumpEnd s (.disconnected c) { s.move c conn .left with hub := hub }

section Steps
variable {pumpEnd : ClientId → Hub → Hub × Bool} {s s' : Server} {e : Event}

theorem staged_some {c : ClientId} {stage : Stage} {conn : Conn}
    (held : staged s c stage = some conn) : find c s.conns = some conn ∧ conn.stage = stage := by
  obtain ⟨found, here⟩ := Option.filter_eq_some_iff.mp held
  exact ⟨found, by simpa using here⟩

theorem attempt_outcome {c : ClientId} {ip : String} (done : step pumpEnd s (.attempt c ip) = some s') :
    Outcome pumpEnd s (.attempt c ip) s' := by
  simp only [step] at done
  split at done
  · cases done
  · rename_i fresh
    have absent : find c s.conns = none := by
      rw [mem_keys_iff] at fresh
      simpa using fresh
    by_cases loopback : Loopback ip
    · simp only [checkIPLimit, if_pos loopback] at done
      obtain rfl := Option.some.inj done
      exact .uncounted c ip absent loopback
    · by_cases full : s.maxPerIP ≤ count ip s.connsByIP
      · simp only [checkIPLimit, if_neg loopback, if_pos full] at done
        obtain rfl := Option.some.inj done
        exact .unchanged _ s.hub (by simp)
      · simp only [checkIPLimit, if_neg loopback, if_neg full] at done
        obtain rfl := Option.some.inj done
        exact .counted c ip absent loopback (not_le.mp full)

theorem disconnected_outcome {c : ClientId} (done : step pumpEnd s (.disconnected c) = some s') :
    Outcome pumpEnd s (.disconnected c) s' := by
  simp only [step, Option.bind_eq_bind, Option.bind_eq_some_iff] at done
  obtain ⟨conn, held, done⟩ := done
  obtain ⟨found, reading⟩ := staged_some held
  have present : conn.stage ≠ .left := by simp [reading]
  split at done
  · rename_i returns
    obtain rfl := Option.some.inj done
    refine .released _ (pumpEnd c s.hub).1 c conn found present ?_
    intro d same
    obtain rfl := Event.disconnected.inj same
    exact returns
  · rename_i waits
    obtain rfl := Option.some.inj done
    exact .stuck (pumpEnd c s.hub).1 c conn found present (by simpa using waits)

theorem step_outcome (done : step pumpEnd s e = some s') : Outcome pumpEnd s e s' := by
  cases e with
  | attempt c ip => exact attempt_outcome done
  | disconnected c => exact disconnected_outcome done
  | upgradeFailed c =>
    obtain ⟨conn, held, rfl⟩ := Option.map_eq_some_iff.mp done
    obtain ⟨found, upgrading⟩ := staged_some held
    exact .released _ s.hub c conn found (by simp [upgrading]) (by simp)
  | upgraded c =>
    obtain ⟨conn, held, rfl⟩ := Option.map_eq_some_iff.mp done
    obtain ⟨found, upgrading⟩ := staged_some held
    exact .moved _ s.hub c conn .upgraded (by simp) found (by simp [upgrading]) (by simp)
  | registered c =>
    simp only [step, Option.bind_eq_bind, Option.bind_eq_some_iff] at done
    obtain ⟨conn, held, hub, -, done⟩ := done
    obtain rfl := Option.some.inj done
    obtain ⟨found, upgraded⟩ := staged_some held
    exact .moved _ hub c conn .reading (by simp) found (by simp [upgraded]) (by simp)
  | hub op =>
    obtain ⟨hub, -, rfl⟩ := Option.map_eq_some_iff.mp done
    exact .unchanged _ hub (by simp)

theorem outcome_limit (outcome : Outcome pumpEnd s e s') : s'.maxPerIP = s.maxPerIP := by
  cases outcome <;> rfl

end Steps

section Holders
variable {conns : List (ClientId × Conn)} {c : ClientId} {conn : Conn}

def holders (conns : List (ClientId × Conn)) (ip : String) : ℕ :=
  tally (fun conn => conn.ip = ip ∧ ¬ Loopback ip) conns

theorem holders_loopback {ip : String} (loopback : Loopback ip) : holders conns ip = 0 := by
  unfold holders tally
  simp [loopback]

theorem holders_uncounted (absent : find c conns = none) (loopback : Loopback conn.ip) :
    holders (upsert c (fun _ => conn) conns) = holders conns := by
  funext ip
  have unheld : ¬ (conn.ip = ip ∧ ¬ Loopback ip) := by
    rintro ⟨rfl, remote⟩
    exact remote loopback
  unfold holders
  rw [tally_upsert_new _ absent, if_neg unheld, add_zero]

theorem holders_counted (absent : find c conns = none) (remote : ¬ Loopback conn.ip) :
    holders (upsert c (fun _ => conn) conns) =
      Function.update (holders conns) conn.ip (holders conns conn.ip + 1) := by
  funext ip
  by_cases own : ip = conn.ip
  · subst own
    rw [Function.update_self, holders, tally_upsert_new _ absent, if_pos ⟨rfl, remote⟩, holders]
  · rw [Function.update_of_ne own, holders, tally_upsert_new _ absent, if_neg (by simp [Ne.symm own]),
      holders]
    rfl

theorem holders_moved (found : find c conns = some conn) (stage : Stage) :
    holders (upsert c (fun _ => { conn with stage := stage }) conns) = holders conns := by
  funext ip
  have moved := tally_upsert_old (fun conn : Conn => conn.ip = ip ∧ ¬ Loopback ip) found
    fun _ => { conn with stage := stage }
  exact Nat.add_right_cancel moved

theorem holders_released (distinct : (keys conns).Nodup) (found : find c conns = some conn) :
    holders (erase c conns) =
      Function.update (holders conns) conn.ip (holders conns conn.ip - 1) := by
  funext ip
  have erased := tally_erase (fun conn : Conn => conn.ip = ip ∧ ¬ Loopback ip) distinct found
  change holders (erase c conns) ip + _ = holders conns ip at erased
  by_cases own : ip = conn.ip
  · subst own
    rw [Function.update_self]
    by_cases loopback : Loopback conn.ip
    · rw [holders_loopback loopback, holders_loopback loopback]
    · rw [if_pos ⟨rfl, loopback⟩] at erased
      omega
  · rw [Function.update_of_ne own, ← erased, if_neg (by simp [Ne.symm own])]
    rfl

theorem holders_split (s : Server) {ip : String} (remote : ¬ Loopback ip) :
    holders s.conns ip = openConns s ip + inFlight s ip + departed s ip := by
  have present : holders s.conns ip =
      tally (fun conn : Conn => conn.ip = ip ∧ conn.stage ≠ .left) s.conns + departed s ip := by
    refine tally_split _ ?_ s.conns
    intro conn
    by_cases own : conn.ip = ip
    · by_cases left : conn.stage = .left
      · simp [own, left, remote]
      · simp [own, left, remote]
    · simp [own]
  have both : tally (fun conn : Conn => conn.ip = ip ∧ conn.stage ≠ .left) s.conns =
      openConns s ip + inFlight s ip := by
    refine tally_split _ ?_ s.conns
    intro conn
    cases conn.stage <;> simp
  rw [present, both]

end Holders

/-- The table counts the slots held, and admits no address above the limit. -/
structure Booked (s : Server) : Prop where
  distinct : (keys s.conns).Nodup
  counts : Counts (holders s.conns) s.connsByIP
  limited : ∀ ip, (holders s.conns ip : ℤ) ≤ max 0 s.maxPerIP

section Runs
variable {pumpEnd : ClientId → Hub → Hub × Bool} {s s' : Server} {e : Event}

theorem newServer_booked (hub : Hub) (maxConnsPerIP : ℤ) : Booked (newServer hub maxConnsPerIP) := by
  refine ⟨List.nodup_nil, ?_, ?_⟩
  · exact counts_empty
  · intro ip
    exact le_max_left _ _

theorem booked_kept (booked : Booked s) (distinct : (keys s'.conns).Nodup)
    (held : holders s'.conns = holders s.conns) (table : s'.connsByIP = s.connsByIP)
    (limit : s'.maxPerIP = s.maxPerIP) : Booked s' := by
  refine ⟨distinct, ?_, ?_⟩
  · rw [held, table]
    exact booked.counts
  · rw [held, limit]
    exact booked.limited

theorem booked_step (booked : Booked s) (outcome : Outcome pumpEnd s e s') : Booked s' := by
  cases outcome with
  | unchanged _ hub quiet => exact booked_kept booked booked.distinct rfl rfl rfl
  | uncounted c ip fresh loopback =>
    exact booked_kept booked (keys_upsert_nodup _ _ _ booked.distinct)
      (holders_uncounted fresh loopback) rfl rfl
  | counted c ip fresh remote room =>
    have more : holders (upsert c (fun _ => ⟨ip, .upgrading⟩) s.conns) =
        Function.update (holders s.conns) ip (holders s.conns ip + 1) := holders_counted fresh remote
    refine ⟨keys_upsert_nodup _ _ _ booked.distinct, ?_, ?_⟩
    · dsimp only
      rw [more]
      exact counts_acquire booked.counts ip
    · intro j
      dsimp only
      rw [more]
      by_cases own : j = ip
      · subst own
        rw [booked.counts.exact_count] at room
        rw [Function.update_self]
        omega
      · rw [Function.update_of_ne own]
        exact booked.limited j
  | moved _ hub c conn stage quiet found present stays =>
    exact booked_kept booked (keys_upsert_nodup _ _ _ booked.distinct)
      (holders_moved found stage) rfl rfl
  | released _ hub c conn found present returned =>
    have fewer := holders_released booked.distinct found
    refine ⟨((erase_sublist c _).map Prod.fst).nodup booked.distinct, ?_, ?_⟩
    · change Counts (holders (erase c s.conns)) (releaseIP conn.ip s.toHandler).connsByIP
      rw [fewer, releaseIP_connsByIP]
      exact counts_release booked.counts conn.ip
    · intro j
      change (holders (erase c s.conns) j : ℤ) ≤ max 0 s.maxPerIP
      rw [fewer]
      have before := booked.limited j
      by_cases own : j = conn.ip
      · subst own
        rw [Function.update_self]
        omega
      · rw [Function.update_of_ne own]
        exact before
  | stuck hub c conn found present waits =>
    exact booked_kept booked (keys_upsert_nodup _ _ _ booked.distinct)
      (holders_moved found .left) rfl rfl

theorem departed_admitted {c : ClientId} {conns : List (ClientId × Conn)} (fresh : find c conns = none)
    (i ip : String) : tally (fun conn => conn.ip = ip ∧ conn.stage = .left)
      (upsert c (fun _ => ⟨i, .upgrading⟩) conns) =
        tally (fun conn => conn.ip = ip ∧ conn.stage = .left) conns := by
  rw [tally_upsert_new _ fresh, if_neg (by simp), add_zero]

/- Only a ReadPump that hangs in its deferred call adds to the departed. -/
theorem departed_step (booked : Booked s) (outcome : Outcome pumpEnd s e s') (ip : String) :
    departed s' ip = departed s ip ∨
      ∃ c, e = .disconnected c ∧ ∃ conn ∈ find c s.conns, conn.ip = ip ∧ (pumpEnd c s.hub).2 = false ∧
        departed s' ip = departed s ip + 1 := by
  cases outcome with
  | unchanged _ hub quiet => exact .inl rfl
  | uncounted c i fresh loopback => exact .inl (departed_admitted fresh i ip)
  | counted c i fresh remote room => exact .inl (departed_admitted fresh i ip)
  | moved _ hub c conn stage quiet found present stays =>
    left
    have counted := tally_upsert_old (fun conn : Conn => conn.ip = ip ∧ conn.stage = .left) found
      fun _ => { conn with stage := stage }
    rw [if_neg (by simp [present]), if_neg (by simp [stays])] at counted
    exact counted
  | released _ hub c conn found present returned =>
    left
    have counted := tally_erase (fun conn : Conn => conn.ip = ip ∧ conn.stage = .left)
      booked.distinct found
    rw [if_neg (by simp [present])] at counted
    exact counted
  | stuck hub c conn found present waits =>
    have counted := tally_upsert_old (fun conn : Conn => conn.ip = ip ∧ conn.stage = .left) found
      fun _ => { conn with stage := .left }
    rw [if_neg (by simp [present]), add_zero] at counted
    by_cases own : conn.ip = ip
    · rw [if_pos ⟨own, rfl⟩] at counted
      exact .inr ⟨c, rfl, conn, found, own, waits, counted⟩
    · rw [if_neg (by simp [own])] at counted
      exact .inl counted

/-- With sound books, the accounting is exact if nobody left without returning the slot. -/
theorem accounted_iff (booked : Booked s) :
    Accounted s ↔ 0 ≤ s.maxPerIP ∧ ∀ ip, ¬ Loopback ip → departed s ip = 0 := by
  constructor
  · intro accounted
    constructor
    · have remote : ¬ Loopback "" := by decide
      have total := booked.counts.exact_count ""
      exact (total ▸ Int.natCast_nonneg _).trans (accounted.limited "" remote)
    · intro ip remote
      have held := booked.counts.exact_count ip
      have claimed := accounted.counted ip remote
      rw [holders_split s remote] at held
      omega
  · rintro ⟨sound, none_left⟩
    have total : ∀ ip, ¬ Loopback ip → count ip s.connsByIP = openConns s ip + inFlight s ip := by
      intro ip remote
      have held := booked.counts.exact_count ip
      rw [holders_split s remote, none_left ip remote] at held
      omega
    refine ⟨total, ?_, ?_, counts_entries booked.counts, ?_⟩
    · intro ip remote
      have limited := booked.limited ip
      rw [← booked.counts.exact_count] at limited
      omega
    · intro ip remote
      rw [checkIPLimit_refuses, total ip remote]
      exact and_iff_right remote
    · intro ip loopback
      constructor
      · rw [← Bool.not_eq_false, checkIPLimit_refuses]
        exact fun refused => refused.1 loopback
      · exact counts_absent booked.counts (holders_loopback loopback)

theorem accounted_step (booked : Booked s) (accounted : Accounted s) (returned : Returned pumpEnd s e)
    (outcome : Outcome pumpEnd s e s') : Accounted s' := by
  obtain ⟨sound, none_left⟩ := (accounted_iff booked).mp accounted
  refine (accounted_iff (booked_step booked outcome)).mpr ⟨?_, ?_⟩
  · rw [outcome_limit outcome]
    exact sound
  · intro ip remote
    rcases departed_step booked outcome ip with same | ⟨c, rfl, conn, found, rfl, waits, -⟩
    · rw [same]
      exact none_left ip remote
    · rw [returned conn found remote] at waits
      cases waits

theorem hanging_departs {c : ClientId} {conn : Conn} (found : find c s.conns = some conn)
    (waits : (pumpEnd c s.hub).2 = false) (outcome : Outcome pumpEnd s (.disconnected c) s') :
    0 < departed s' conn.ip := by
  cases outcome with
  | unchanged _ hub quiet => exact absurd rfl (quiet c)
  | moved _ hub d other stage quiet => exact absurd rfl (quiet c)
  | released _ hub d other found' present returned =>
    rw [returned c rfl] at waits
    cases waits
  | stuck hub _ other same present waits' =>
    obtain rfl := Option.some.inj (found.symm.trans same)
    refine tally_pos _ (k := c) (b := { conn with stage := .left }) ?_ ⟨rfl, rfl⟩
    exact find_upsert_self c (fun _ => { conn with stage := .left }) s.conns

theorem unreturned_breaks (booked : Booked s) (unreturned : ¬ Returned pumpEnd s e)
    (outcome : Outcome pumpEnd s e s') : ¬ Accounted s' := by
  intro accounted
  obtain ⟨-, none_left⟩ := (accounted_iff (booked_step booked outcome)).mp accounted
  apply unreturned
  cases e with
  | disconnected c =>
    intro conn found remote
    by_contra waits
    have gone := hanging_departs found (by simpa using waits) outcome
    rw [none_left conn.ip remote] at gone
    omega
  | _ => trivial

theorem newServer_accounted (hub : Hub) (maxConnsPerIP : ℤ) :
    Accounted (newServer hub maxConnsPerIP) ↔ 0 ≤ maxConnsPerIP := by
  rw [accounted_iff (newServer_booked hub maxConnsPerIP)]
  have limit : 0 ≤ (newServer hub maxConnsPerIP).maxPerIP ↔ 0 ≤ maxConnsPerIP := by
    simp only [newServer, newHandler]
    split <;> omega
  rw [limit]
  exact and_iff_left fun _ _ => rfl

/- Whatever ReadPump's deferred call does: the accounting is exact along a run if and
   only if the limit is one and the call returns for every counted address. -/
theorem accounted_iff_returned (pumpEnd : ClientId → Hub → Hub × Bool) (hub : Hub) (maxConnsPerIP : ℤ)
    (es : List Event) : Always (step pumpEnd) Accounted (newServer hub maxConnsPerIP) es ↔
      0 ≤ maxConnsPerIP ∧ Guarded (step pumpEnd) (Returned pumpEnd) (newServer hub maxConnsPerIP) es := by
  have exact_guard : ∀ s, Booked s ∧ Accounted s →
      (Always (step pumpEnd) Accounted s es ↔ Guarded (step pumpEnd) (Returned pumpEnd) s es) := by
    intro s start
    refine always_iff_guarded (fun s => Booked s ∧ Accounted s) (fun _ => And.right) ?_ ?_ start es
    · intro s e s' inv returned done
      have outcome := step_outcome done
      exact ⟨booked_step inv.1 outcome, accounted_step inv.1 inv.2 returned outcome⟩
    · intro s e s' inv unreturned done
      exact unreturned_breaks inv.1 unreturned (step_outcome done)
  have booked := newServer_booked hub maxConnsPerIP
  constructor
  · intro always
    have start : Accounted (newServer hub maxConnsPerIP) := always [] List.nil_prefix _ rfl
    exact ⟨(newServer_accounted hub maxConnsPerIP).mp start, (exact_guard _ ⟨booked, start⟩).mp always⟩
  · rintro ⟨sound, guarded⟩
    have start := (newServer_accounted hub maxConnsPerIP).mpr sound
    exact (exact_guard _ ⟨booked, start⟩).mpr guarded

theorem accounted_of_returns (returns : ∀ c h, (pumpEnd c h).2 = true) (hub : Hub) {maxConnsPerIP : ℤ}
    (sound : 0 ≤ maxConnsPerIP) (es : List Event) :
    Always (step pumpEnd) Accounted (newServer hub maxConnsPerIP) es := by
  refine (accounted_iff_returned pumpEnd hub maxConnsPerIP es).mpr ⟨sound, guarded_of_events ?_⟩
  intro e _ s
  cases e with
  | disconnected c => exact fun _ _ _ => returns c s.hub
  | _ => trivial

theorem departed_run (booked : Booked s) {es : List Event} (reach : run (step pumpEnd) s es = some s')
    (ip : String) : Booked s' ∧ s'.maxPerIP = s.maxPerIP ∧ departed s ip ≤ departed s' ip := by
  induction es generalizing s with
  | nil =>
    obtain rfl := Option.some.inj reach
    exact ⟨booked, rfl, le_rfl⟩
  | cons e es ih =>
    simp only [run_cons, Option.bind_eq_some_iff] at reach
    obtain ⟨t, first, reach⟩ := reach
    have outcome := step_outcome first
    obtain ⟨later, limit, grows⟩ := ih (booked_step booked outcome) reach
    refine ⟨later, limit.trans (outcome_limit outcome), ?_⟩
    rcases departed_step booked outcome ip with same | ⟨-, -, -, -, -, -, more⟩
    · omega
    · omega

/-- An address that used up its limit on connections that have left is refused for good. -/
theorem locked_out (booked : Booked s) {ip : String} (remote : ¬ Loopback ip)
    (used : s.maxPerIP ≤ departed s ip) {es : List Event}
    (reach : run (step pumpEnd) s es = some s') : (checkIPLimit ip s'.toHandler).1 = false := by
  obtain ⟨later, limit, grows⟩ := departed_run booked reach ip
  refine (checkIPLimit_refuses ip s'.toHandler).mpr ⟨remote, ?_⟩
  rw [later.counts.exact_count, holders_split s' remote, limit]
  omega

end Runs

section Disconnects

theorem unregister_returns_never (c : ClientId) (h h' : Hub) : unregister c h ≠ .ok h' := by
  rw [unregister_cut]
  cases removed : removeClient c h with
  | error fault => exact nofun
  | ok h₁ =>
    have held : h₁.mu = .writing := by
      unfold removeClient at removed
      have entered := lock_returned removed
      obtain rfl := Except.ok.inj entered
      rfl
    change (clientCount h₁ >>= _) ≠ .ok h'
    rw [clientCount_held held]
    exact nofun

theorem readPumpEnd_waits (c : ClientId) (h : Hub) : (readPumpEnd c h).2 = false := by
  unfold readPumpEnd
  cases done : unregister c h with
  | error fault => rfl
  | ok h' => exact absurd done (unregister_returns_never c h h')

theorem returned_iff_kept (s : Server) (e : Event) : Returned readPumpEnd s e ↔ Kept s e := by
  cases e with
  | disconnected c => simp [Returned, Kept, readPumpEnd_waits]
  | _ => exact Iff.rfl

theorem slots_exact_iff (hub : Hub) (maxConnsPerIP : ℤ) (es : List Event) :
    Always (step readPumpEnd) Accounted (newServer hub maxConnsPerIP) es ↔
      0 ≤ maxConnsPerIP ∧ Guarded (step readPumpEnd) Kept (newServer hub maxConnsPerIP) es := by
  have same : Returned readPumpEnd = Kept := by
    funext s e
    exact propext (returned_iff_kept s e)
  rw [accounted_iff_returned, same]

/-- One connection comes and goes: its slot is neither open nor in flight, and still counted. -/
theorem disconnect_keeps_slot :
    ∃ s, run (step readPumpEnd) (newServer (newHub sampleValidator 256) 10)
        [.attempt 1 "203.0.113.7", .upgraded 1, .registered 1, .disconnected 1] = some s ∧
      count "203.0.113.7" s.connsByIP = 1 ∧ openConns s "203.0.113.7" = 0 ∧
      inFlight s "203.0.113.7" = 0 ∧ ¬ Accounted s := by
  refine ⟨_, rfl, rfl, rfl, rfl, ?_⟩
  intro accounted
  have claimed := accounted.counted "203.0.113.7" (by decide)
  exact absurd claimed (by decide)

end Disconnects

end ConnectionLimit
