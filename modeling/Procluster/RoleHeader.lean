import Procluster.CandlesApi

/-!
How the header X-User-Role reaches the code that reads it: the reverse proxy, the mux,
the wrappers installed on each route, RequireAdmin, and the history window of
handleCandles. Header names are canonical, so Header.Get reads a function. Other
handlers are named and not run; headers that Caddy adds to a response are left out.
-/
namespace RoleHeader
open CandlesApi Validate KeyedFold

/-- A missing header is empty; connection lists the headers that Connection names. -/
structure HTTPRequest where
  method : String
  path : String
  query : String → String
  header : String → String
  connection : List String

def HTTPRequest.set (r : HTTPRequest) (name value : String) : HTTPRequest :=
  { r with header := fun other => if other = name then value else r.header other }

def withRole (r : HTTPRequest) (role : String) : HTTPRequest := r.set "X-User-Role" role

structure Environment where
  corsAllowedOrigins : String
  adminDevBypass : String

inductive ApiHandler
  | candles
  | dom
  | fearGreed
  | tickers
  deriving DecidableEq

inductive AdminHandler
  | historyLoad
  | historyProgress
  | metrics
  | tickers
  | compressionDefaults
  | logs
  deriving DecidableEq

inductive Handler
  | healthz
  | ws
  | api (handler : ApiHandler)
  | admin (handler : AdminHandler)
  deriving DecidableEq

/-- What becomes of a request; unrouted is the mux's own 404 or redirect. -/
inductive Outcome
  | unrouted
  | noContent
  | failed (error : ApiError)
  | runs (handler : Handler) (request : HTTPRequest)

structure Reply where
  headers : List (String × String)
  outcome : Outcome

abbrev HandlerFunc := HTTPRequest → Reply

def run (handler : Handler) : HandlerFunc := fun r => ⟨[], .runs handler r⟩

def isSpace (c : Char) : Bool :=
  c.toNat ∈ [9, 10, 11, 12, 13, 32, 0x85, 0xA0, 0x1680, 0x2028, 0x2029, 0x202F, 0x205F, 0x3000] ∨
    (0x2000 ≤ c.toNat ∧ c.toNat ≤ 0x200A)

/-- strings.TrimSpace -/
def trimSpace (cs : List Char) : List Char :=
  ((cs.dropWhile isSpace).reverse.dropWhile isSpace).reverse

def defaultOrigins : List String :=
  ["http://localhost:5180", "http://localhost:5181", "http://127.0.0.1:5180",
    "http://127.0.0.1:5181", "https://procluster.online", "https://chart.procluster.online",
    "https://www.procluster.online", "https://www.chart.procluster.online"]

def allowedOrigins (env : Environment) : List String :=
  let origins := if env.corsAllowedOrigins ≠ ""
    then (env.corsAllowedOrigins.toList.splitOn ',').map String.ofList else defaultOrigins
  (origins.map fun o => String.ofList (trimSpace o.toList)).filter fun o => o ≠ ""

def isOriginAllowed (env : Environment) (origin : String) : Bool :=
  if origin = "" then false else origin ∈ allowedOrigins env

def corsMiddleware (env : Environment) (next : HandlerFunc) : HandlerFunc := fun r =>
  let origin := r.header "Origin"
  let headers := if origin ≠ "" ∧ isOriginAllowed env origin then
    [("Access-Control-Allow-Origin", origin),
      ("Access-Control-Allow-Methods", "GET, POST, DELETE, OPTIONS"),
      ("Access-Control-Allow-Headers", "Content-Type, Authorization, X-User-Role"),
      ("Access-Control-Allow-Credentials", "true")] else []
  if r.method = "OPTIONS" then ⟨headers, .noContent⟩
  else ⟨headers ++ (next r).headers, (next r).outcome⟩

def requireAdmin (env : Environment) (next : HandlerFunc) : HandlerFunc := fun r =>
  if env.adminDevBypass = "true" then next r
  else
    let role := r.header "X-User-Role"
    if role ≠ "admin" then
      ⟨[("Content-Type", "application/json")], .failed ⟨403, "FORBIDDEN", "admin role required"⟩⟩
    else next r

/-- Sets the temporary guest role; no route installs it. -/
def authMiddleware (next : HandlerFunc) : HandlerFunc := fun r => next (r.set "X-User-Role" "guest")

def rateLimitMiddleware (next : HandlerFunc) : HandlerFunc := authMiddleware next

def apiRoutes : List (String × ApiHandler) :=
  [("/api/candles", .candles), ("/api/dom", .dom), ("/api/fear-greed", .fearGreed),
    ("/api/tickers", .tickers)]

def setupRoutes (env : Environment) : List (String × HandlerFunc) :=
  apiRoutes.map fun p => (p.1, corsMiddleware env (run (.api p.2)))

def adminRoutes : List (String × AdminHandler) :=
  [("/api/admin/history/load", .historyLoad), ("/api/admin/history/progress", .historyProgress),
    ("/api/admin/metrics", .metrics), ("/api/admin/tickers", .tickers),
    ("/api/admin/compression-defaults", .compressionDefaults), ("/api/admin/logs", .logs)]

def registerRoutes (cors adminAuth : HandlerFunc → HandlerFunc) : List (String × HandlerFunc) :=
  adminRoutes.map fun p => (p.1, cors (adminAuth (run (.admin p.2))))

/-- The mux of runServer; none of its patterns ends in a slash. -/
def mux (env : Environment) : List (String × HandlerFunc) :=
  [("/healthz", run .healthz)] ++ setupRoutes env ++
    registerRoutes (corsMiddleware env) (requireAdmin env) ++ [("/ws", run .ws)]

def serveHTTP (env : Environment) (r : HTTPRequest) : Reply :=
  match find r.path (mux env) with
  | some handler => handler r
  | none => ⟨[], .unrouted⟩

/-- reverse_proxy without header rules: the headers that Connection names are dropped,
    the address of the client is added. -/
def reverseProxy (client : String) (r : HTTPRequest) : HTTPRequest :=
  let passed := { r with header := fun name => if name ∈ r.connection then "" else r.header name }
  ((passed.set "X-Forwarded-For" client).set "X-Forwarded-Proto" "https").set
    "X-Forwarded-Host" (passed.header "Host")

/-- chart.procluster.online: /api/* and /ws go to the backend, the rest to the frontend. -/
def chartSite (env : Environment) (client : String) (r : HTTPRequest) : Outcome :=
  if "/api/".toList <+: r.path.toList ∨ r.path = "/ws" then
    (serveHTTP env (reverseProxy client r)).outcome
  else .unrouted

def candlesRequest (r : HTTPRequest) : Request := ⟨r.method, r.query, r.header "X-User-Role"⟩

def decision : Outcome → Option Bool
  | .failed _ => some false
  | .runs (.admin _) _ => some true
  | _ => none

def cutoffSec (nowUnixSec historyDays : ℤ) : Option ℤ :=
  if 0 < historyDays then some (nowUnixSec - historyDays * 86400) else none

def historyCutoff (m : CaseMap) (v : Validator) (nowUnixSec : ℤ) : Outcome → Option (Option ℤ)
  | .runs (.api .candles) r =>
    match readParams m v (candlesRequest r) with
    | .ok p => some (cutoffSec nowUnixSec p.historyDays)
    | .error _ => none
  | _ => none

theorem limitHistory_cutoff (nowUnixSec historyDays : ℤ)
    (candles : List Aggregate.ClusterCandle) : (limitHistory nowUnixSec historyDays candles).1 =
      match cutoffSec nowUnixSec historyDays with
      | some sec => candles.filter fun c => sec ≤ c.time
      | none => candles := by
  unfold limitHistory cutoffSec
  by_cases limited : 0 < historyDays
  · by_cases empty : candles = []
    · simp [limited, empty]
    · simp [limited, empty]
  · simp [limited]

def roleSeen (r : HTTPRequest) (role : String) : String :=
  if "X-User-Role" ∈ r.connection then "" else role

section Route
variable (env : Environment) (client : String) (r : HTTPRequest) (role : String)

@[simp] theorem proxied_method :
    (reverseProxy client (withRole r role)).method = r.method := rfl

@[simp] theorem proxied_path : (reverseProxy client (withRole r role)).path = r.path := rfl

@[simp] theorem proxied_query : (reverseProxy client (withRole r role)).query = r.query := rfl

@[simp] theorem proxied_role :
    (reverseProxy client (withRole r role)).header "X-User-Role" = roleSeen r role := by
  simp [reverseProxy, withRole, HTTPRequest.set, roleSeen]

theorem find_admin {p : String × AdminHandler} (route : p ∈ adminRoutes) : find p.1 (mux env) =
    some (corsMiddleware env (requireAdmin env (run (.admin p.2)))) := by
  simp only [adminRoutes, List.mem_cons, List.not_mem_nil, or_false] at route
  rcases route with rfl | rfl | rfl | rfl | rfl | rfl <;> rfl

theorem find_candles : find "/api/candles" (mux env) =
    some (corsMiddleware env (run (.api .candles))) := rfl

theorem cors_outcome (next : HandlerFunc) : (corsMiddleware env next r).outcome =
    if r.method = "OPTIONS" then .noContent else (next r).outcome := by
  unfold corsMiddleware
  split <;> rfl

theorem find_other {path : String} (notAdmin : path ∉ adminRoutes.map Prod.fst)
    (notCandles : path ≠ "/api/candles") {handler : HandlerFunc}
    (found : find path (mux env) = some handler) (m : CaseMap) (v : Validator) (nowUnixSec : ℤ) :
    decision (handler r).outcome = none ∧
      historyCutoff m v nowUnixSec (handler r).outcome = none := by
  have entry := mem_of_find found
  rw [mux, List.mem_append, List.mem_append, List.mem_append, List.mem_singleton,
    List.mem_singleton, setupRoutes, registerRoutes, List.mem_map, List.mem_map] at entry
  rcases entry with ((health | ⟨p, route, same⟩) | ⟨p, route, same⟩) | socket
  · rw [(Prod.mk.inj health).2]
    exact ⟨rfl, rfl⟩
  · obtain ⟨rfl, rfl⟩ := Prod.mk.inj same
    rw [cors_outcome]
    split
    · exact ⟨rfl, rfl⟩
    · simp only [apiRoutes, List.mem_cons, List.not_mem_nil, or_false] at route
      rcases route with rfl | rfl | rfl | rfl
      · exact absurd rfl notCandles
      · exact ⟨rfl, rfl⟩
      · exact ⟨rfl, rfl⟩
      · exact ⟨rfl, rfl⟩
  · obtain ⟨rfl, -⟩ := Prod.mk.inj same
    exact absurd (List.mem_map_of_mem route) notAdmin
  · rw [(Prod.mk.inj socket).2]
    exact ⟨rfl, rfl⟩

theorem admin_api {path : String} (admin : path ∈ adminRoutes.map Prod.fst) :
    "/api/".toList <+: path.toList ∧ path ≠ "/api/candles" := by
  revert path
  decide

theorem chart_admin (admin : r.path ∈ adminRoutes.map Prod.fst) :
    ∃ handler, chartSite env client (withRole r role) = if r.method = "OPTIONS" then .noContent else
      (requireAdmin env (run (.admin handler)) (reverseProxy client (withRole r role))).outcome := by
  obtain ⟨p, route, same⟩ := List.mem_map.mp admin
  refine ⟨p.2, (if_pos (.inl (admin_api admin).1)).trans ?_⟩
  have found := find_admin env route
  rw [same] at found
  rw [serveHTTP, proxied_path, found]
  exact cors_outcome env _ _

theorem chart_candles (candles : r.path = "/api/candles") :
    chartSite env client (withRole r role) = if r.method = "OPTIONS" then .noContent else
      .runs (.api .candles) (reverseProxy client (withRole r role)) := by
  have api : "/api/".toList <+: r.path.toList := by
    rw [candles]
    decide
  refine (if_pos (.inl api)).trans ?_
  rw [serveHTTP, proxied_path, candles, find_candles]
  exact cors_outcome env _ _

theorem chart_other (notAdmin : r.path ∉ adminRoutes.map Prod.fst)
    (notCandles : r.path ≠ "/api/candles") (m : CaseMap) (v : Validator) (nowUnixSec : ℤ) :
    decision (chartSite env client (withRole r role)) = none ∧
      historyCutoff m v nowUnixSec (chartSite env client (withRole r role)) = none := by
  unfold chartSite
  split
  · unfold serveHTTP
    split
    · rename_i handler found
      exact find_other env _ notAdmin notCandles found m v nowUnixSec
    · exact ⟨rfl, rfl⟩
  · exact ⟨rfl, rfl⟩

/-- RequireAdmin admits exactly the requests whose header arrives as admin. -/
theorem chart_decision (noBypass : env.adminDevBypass ≠ "true") :
    decision (chartSite env client (withRole r role)) =
      if r.path ∈ adminRoutes.map Prod.fst ∧ r.method ≠ "OPTIONS" then
        some (roleSeen r role = "admin" : Bool) else none := by
  by_cases admin : r.path ∈ adminRoutes.map Prod.fst
  · obtain ⟨handler, answer⟩ := chart_admin env client r role admin
    rw [answer]
    by_cases preflight : r.method = "OPTIONS"
    · simp [preflight, decision]
    · by_cases allowed : roleSeen r role = "admin"
      · simp [preflight, admin, requireAdmin, noBypass, allowed, run, decision]
      · simp [preflight, admin, requireAdmin, noBypass, allowed, decision]
  · rw [if_neg (fun guarded => admin guarded.1)]
    by_cases candles : r.path = "/api/candles"
    · rw [chart_candles env client r role candles]
      split <;> rfl
    · exact (chart_other env client r role admin candles ⟨id, id⟩ ⟨[]⟩ 0).1

end Route

def roleDays (role : String) : ℤ := roleHistoryDays (if role = "" then "guest" else role)

theorem readParams_role (m : CaseMap) (v : Validator) (r : Request) (role : String) :
    readParams m v { r with userRole := role } =
      (readParams m v r).map fun p => { p with historyDays := roleDays role } := by
  have mapped : ∀ {a b c : Type} (x : Except ApiError a) (f : a → Except ApiError b) (g : b → c),
      (x >>= f).map g = x >>= fun y => (f y).map g := by
    intro a b c x f g
    cases x <;> rfl
  unfold readParams
  split
  · rfl
  · simp only [mapped]
    rfl

theorem chart_cutoff (env : Environment) (client : String) (r : HTTPRequest) (role : String)
    (m : CaseMap) (v : Validator) (nowUnixSec : ℤ) :
    historyCutoff m v nowUnixSec (chartSite env client (withRole r role)) =
      if r.path = "/api/candles" then
        (readParams m v ⟨r.method, r.query, ""⟩).toOption.map fun _ =>
          cutoffSec nowUnixSec (roleDays (roleSeen r role))
      else none := by
  by_cases candles : r.path = "/api/candles"
  · have read := readParams_role m v ⟨r.method, r.query, ""⟩ (roleSeen r role)
    rw [chart_candles env client r role candles, if_pos candles]
    by_cases preflight : r.method = "OPTIONS"
    · simp [preflight, historyCutoff, readParams, Except.toOption]
    · simp only [preflight, ↓reduceIte, historyCutoff, candlesRequest, proxied_method, proxied_query,
        proxied_role]
      rw [read]
      cases readParams m v ⟨r.method, r.query, ""⟩ with
      | error e => rfl
      | ok p => rfl
  · rw [if_neg candles]
    by_cases admin : r.path ∈ adminRoutes.map Prod.fst
    · obtain ⟨handler, answer⟩ := chart_admin env client r role admin
      rw [answer]
      unfold requireAdmin
      split
      · rfl
      · split
        · rfl
        · dsimp only
          split <;> rfl
    · exact (chart_other env client r role admin candles m v nowUnixSec).2

def Unlimited (role : String) : Prop := role = "vip" ∨ role = "admin"

def SameWindow (x y : String) : Prop :=
  (x = "free" ↔ y = "free") ∧ (x = "pro" ↔ y = "pro") ∧ (Unlimited x ↔ Unlimited y)

theorem roleDays_eq (role : String) : roleDays role =
    if role = "free" then 180 else if role = "pro" then 365
      else if role = "vip" ∨ role = "admin" then -1 else 7 := by
  by_cases absent : role = ""
  · subst absent
    rfl
  · simp only [roleDays, absent, ↓reduceIte]
    unfold roleHistoryDays
    split <;> simp_all

theorem cutoffSec_eq_iff (nowUnixSec : ℤ) (x y : String) :
    cutoffSec nowUnixSec (roleDays x) = cutoffSec nowUnixSec (roleDays y) ↔ SameWindow x y := by
  simp only [roleDays_eq, SameWindow, Unlimited]
  grind [cutoffSec]

section Privileges
variable (m : CaseMap) (v : Validator) (nowUnixSec : ℤ) (env : Environment) (client : String)
  (r : HTTPRequest) (x y : String)

/-- Two values of the header get the same decision and the same cut-off. -/
structure SamePrivileges : Prop where
  admin : decision (chartSite env client (withRole r x)) =
    decision (chartSite env client (withRole r y))
  history : historyCutoff m v nowUnixSec (chartSite env client (withRole r x)) =
    historyCutoff m v nowUnixSec (chartSite env client (withRole r y))

/-- Neither the admin guard nor the window can tell the values apart. -/
structure Alike : Prop where
  admin : r.path ∈ adminRoutes.map Prod.fst → r.method ≠ "OPTIONS" → (x = "admin" ↔ y = "admin")
  window : r.path = "/api/candles" → (∃ p, readParams m v ⟨r.method, r.query, ""⟩ = .ok p) →
    SameWindow x y

/-- Two values of the header carry the same privileges exactly when the header is dropped
    on the way or the values are alike for this request. -/
theorem privileges_iff (noBypass : env.adminDevBypass ≠ "true") :
    SamePrivileges m v nowUnixSec env client r x y ↔
      "X-User-Role" ∈ r.connection ∨ Alike m v r x y := by
  by_cases dropped : "X-User-Role" ∈ r.connection
  · refine iff_of_true ⟨?_, ?_⟩ (.inl dropped)
    · simp only [chart_decision env client r _ noBypass, roleSeen, dropped, ↓reduceIte]
    · simp only [chart_cutoff, roleSeen, dropped, ↓reduceIte]
  · have seen : ∀ role, roleSeen r role = role := fun role => if_neg dropped
    have admin : decision (chartSite env client (withRole r x)) =
        decision (chartSite env client (withRole r y)) ↔
          (r.path ∈ adminRoutes.map Prod.fst → r.method ≠ "OPTIONS" → (x = "admin" ↔ y = "admin")) := by
      simp only [chart_decision env client r _ noBypass, seen]
      by_cases guarded : r.path ∈ adminRoutes.map Prod.fst ∧ r.method ≠ "OPTIONS"
      · simp [guarded]
      · simp only [if_neg guarded, true_iff]
        exact fun path method => absurd ⟨path, method⟩ guarded
    have window : historyCutoff m v nowUnixSec (chartSite env client (withRole r x)) =
        historyCutoff m v nowUnixSec (chartSite env client (withRole r y)) ↔
          (r.path = "/api/candles" → (∃ p, readParams m v ⟨r.method, r.query, ""⟩ = .ok p) →
            SameWindow x y) := by
      simp only [chart_cutoff, seen]
      by_cases candles : r.path = "/api/candles"
      · cases read : readParams m v ⟨r.method, r.query, ""⟩ with
        | error e => simp [candles, Except.toOption]
        | ok p => simp [candles, Except.toOption, cutoffSec_eq_iff]
      · simp [candles]
    constructor
    · intro same
      exact .inr ⟨admin.mp same.admin, window.mp same.history⟩
    · rintro (gone | alike)
      · exact absurd gone dropped
      · exact ⟨admin.mpr alike.admin, window.mpr alike.window⟩

end Privileges

def metricsRequest : HTTPRequest := ⟨"GET", "/api/admin/metrics", fun _ => "", fun _ => "", []⟩

theorem guest_and_free_alike : SamePrivileges ⟨id, id⟩ ⟨[]⟩ 0 ⟨"", ""⟩ "192.0.2.1" metricsRequest
    "guest" "free" := by
  refine (privileges_iff ⟨id, id⟩ ⟨[]⟩ 0 ⟨"", ""⟩ "192.0.2.1" metricsRequest "guest" "free"
    (by decide)).mpr (.inr ⟨?_, ?_⟩)
  · intro _ _
    decide
  · intro path
    exact absurd path (by decide)

/-- The client that calls itself admin is let in. -/
theorem header_admits : ¬ ∀ (m : CaseMap) (v : Validator) (nowUnixSec : ℤ) (client : String)
    (r : HTTPRequest) (x y : String), SamePrivileges m v nowUnixSec ⟨"", ""⟩ client r x y := by
  intro same
  have admin := (same ⟨id, id⟩ ⟨[]⟩ 0 "192.0.2.1" metricsRequest "guest" "admin").admin
  revert admin
  decide

end RoleHeader
