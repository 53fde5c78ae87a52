import Zponder.Auth

/-!
# Requests and the token

`Server.handleRequest` up to the handler: the limits on the request, the preflight, the
token, the routes the scripts have registered, and the routes of the server itself. What is
kept of a request is the reply and the handlers that were executed for it
(`Zponder.Http.Served`); what they answer is their own affair.

A path without its query that is exactly `/health` needs no token, whoever serves it. The
routes of the scripts come first, so that one that matches this path is executed for
anybody: the token guards the handlers (`Zponder.Http.Guarded`) as long as there is none.
-/

namespace Zponder.Http

/-! ### The routes of the scripts -/

/-- `std.http.Method` -/
inductive Method where
  | get
  | head
  | post
  | put
  | delete
  | connect
  | options
  | trace
  | patch
  deriving DecidableEq, Repr

/-- `js_engine.HttpMethod` -/
inductive JsMethod where
  | get
  | post
  | put
  | delete
  deriving DecidableEq, Repr

/-- The methods a script can register a route for. -/
def Method.js : Method → Option JsMethod
  | .get => some .get
  | .post => some .post
  | .put => some .put
  | .delete => some .delete
  | _ => none

/-- `HttpRoute` -/
structure HttpRoute (H : Type) where
  method : JsMethod
  path : Text
  handler : H

/-- What the scripts have registered with `ponder.http`. -/
structure Js (H : Type) where
  httpRoutes : List (HttpRoute H) := []
  httpMiddlewares : List H := []

/-- The segments of a pattern and of a path, one against the other. -/
def matchSegments : List Text → List Text → Bool
  | [], [] => true
  | p :: ps, a :: as => (p.head? == some ':' || p == a) && matchSegments ps as
  | _, _ => false

/-- `matchPath` -/
def matchPath (pattern path : Text) : Bool :=
  matchSegments (pattern.splitOn '/') (path.splitOn '/')

/-- `matchRoute` -/
def matchRoute {H : Type} (routes : List (HttpRoute H)) (method : JsMethod) (path : Text) :
    Option (HttpRoute H) :=
  routes.find? fun r => r.method == method && matchPath r.path path

/-! ### The server -/

/-- The handlers of the server. -/
inductive Builtin where
  | dashboard
  | page
  | kline
  | health
  | syncState
  | user
  | events
  | contracts
  | balance
  | schema
  | cacheStats
  | metrics
  | version
  | replay
  | query
  | stream
  deriving DecidableEq, Repr

/-- A handler that was executed. A middleware of the scripts is one as well. -/
inductive Handler (H : Type) where
  | builtin (b : Builtin)
  | js (f : H)
  deriving DecidableEq, Repr

/-- The replies of the server, and those of a handler. -/
inductive Reply where
  | tooManyRequests
  | payloadTooLarge
  | preflight
  | unauthorized
  | handled
  | notFound
  deriving DecidableEq, Repr

/-- What became of a request. -/
structure Served (H : Type) where
  executed : List (Handler H) := []
  reply : Reply

/-- A request, as far as it is looked at before its handler. -/
structure Request where
  method : Method
  target : Text
  headBuffer : Text
  contentLength : Option Nat := none

/-- The server: its token, whether it limits the rate, and the engine of the scripts. -/
structure Server (H : Type) where
  apiToken : Text
  rateLimited : Bool := false
  js : Option (Js H) := none

/-- What the server cannot know: whether the limiter allows the request, how often the
middlewares call `next`, and whether the scripts come up with a response. -/
structure Chance where
  allowed : Bool := true
  nexts : Nat := 0
  responds : Bool := true

/-- `MAX_BODY_SIZE` -/
def maxBodySize : Nat := 1024 * 1024

/-- The target up to its query. -/
def Request.path (r : Request) : Text := r.target.takeWhile (· != '?')

section Server

variable {H : Type} (S : Server H) (chance : Chance) (r : Request)

/-- The chain of the middlewares: every call of `next` goes on by one, and behind the last
one is the handler of the route. -/
def dispatch (middlewares : List H) (handler : H) : List H :=
  if middlewares = [] then [handler]
  else (List.range (chance.nexts + 1)).map fun i => middlewares[i]?.getD handler

/-- The route of the scripts that a request is for. -/
def dynamicRoute : Option (Js H × HttpRoute H) := do
  let js ← S.js
  let method ← r.method.js
  let route ← matchRoute js.httpRoutes method r.path
  some (js, route)

/-- `tryDynamicRoute`: what was executed, and whether there was a response. -/
def tryDynamicRoute : List (Handler H) × Bool :=
  match dynamicRoute S r with
  | none => ([], false)
  | some (js, route) =>
    ((dispatch chance js.httpMiddlewares route.handler).map .js, chance.responds)

/-- The routes of the server, in their order. -/
def findBuiltin : Option Builtin :=
  let isGet := r.method == .get
  let startsWith := fun (s : String) => s.toList.isPrefixOf r.target
  let eql := fun (s : String) => r.target == s.toList
  if isGet && (eql "/dashboards" || startsWith "/dashboards/") then some .dashboard
  else if isGet && startsWith "/pages/" then some .page
  else if isGet && (eql "/" || eql "/kline") then some .kline
  else if isGet && eql "/health" then some .health
  else if isGet && eql "/sync_state" then some .syncState
  else if isGet && startsWith "/user/" then some .user
  else if isGet && startsWith "/events/" then some .events
  else if isGet && eql "/contracts" then some .contracts
  else if isGet && startsWith "/balance/" then some .balance
  else if isGet && eql "/schema" then some .schema
  else if isGet && eql "/cache/stats" then some .cacheStats
  else if isGet && eql "/metrics" then some .metrics
  else if isGet && eql "/version" then some .version
  else if r.method == .post && eql "/replay" then some .replay
  else if isGet && startsWith "/queries/" then some .query
  else if isGet && (eql "/stream" || eql "/api/v1/stream") then some .stream
  else none

/-- The end of `handleRequest`: the scripts first, then the server. -/
def route : Served H :=
  let dynamic := tryDynamicRoute S chance r
  if dynamic.2 = true then ⟨dynamic.1, .handled⟩
  else
    match findBuiltin r with
    | some b => ⟨dynamic.1 ++ [.builtin b], .handled⟩
    | none => ⟨dynamic.1, .notFound⟩

/-- The server has no time for the request, or finds it too large. -/
def turnedDown : Option Reply :=
  if S.rateLimited = true ∧ chance.allowed = false then some .tooManyRequests
  else if maxBodySize < r.contentLength.getD 0 then some .payloadTooLarge
  else none

/-- `handleRequest` -/
def handleRequest : Served H :=
  match turnedDown S chance r with
  | some reply => ⟨[], reply⟩
  | none =>
    if r.method = .options then ⟨[], .preflight⟩
    else if Auth.routeAllowed S.apiToken false r.path r.headBuffer = false then ⟨[], .unauthorized⟩
    else route S chance r

/-! ### What is asked of it -/

/-- **The token guards the handlers**: without it only the handler of `/health` is executed,
and with it nobody is turned away as unauthorized. -/
structure Guarded : Prop where
  shut : ¬Auth.Presents S.apiToken r.headBuffer →
    ∀ h ∈ (handleRequest S chance r).executed, h = .builtin .health
  admits : Auth.Presents S.apiToken r.headBuffer →
    (handleRequest S chance r).reply ≠ .unauthorized

/-- **When it does**: of the requests that are looked at, none without the token is for the
path `/health` and a route of the scripts that matches it; and where a request has the token,
there are no blanks around the token, or the path is `/health`. -/
structure Sound : Prop where
  shut : turnedDown S chance r = none → ¬Auth.Presents S.apiToken r.headBuffer →
    r.path = "/health".toList → dynamicRoute S r = none
  admits : turnedDown S chance r = none → Auth.Presents S.apiToken r.headBuffer →
    Text.trim S.apiToken = S.apiToken ∨ r.path = "/health".toList

end Server

/-! ### Who is let in -/

section Guard

variable {H : Type} {S : Server H} {chance : Chance} {r : Request}

theorem routeAllowed_iff {token path head : Text} (htoken : token ≠ []) :
    Auth.routeAllowed token false path head = true ↔
      path = "/health".toList ∨ Auth.Presents token head ∧ Text.trim token = token := by
  rw [Auth.routeAllowed, if_neg Bool.false_ne_true]
  split
  · next h => simp [h]
  · next h => rw [Auth.requestAllowed_iff htoken, or_iff_right h]

/-- What becomes of a request that is looked at. -/
theorem handleRequest_of_none (hdown : turnedDown S chance r = none) (hm : r.method ≠ .options) :
    handleRequest S chance r =
      if Auth.routeAllowed S.apiToken false r.path r.headBuffer = false then ⟨[], .unauthorized⟩
      else route S chance r := by
  rw [handleRequest, hdown]
  exact if_neg hm

/-- A request that is not looked at executes nothing, and is not turned away for its
token. -/
theorem handleRequest_of_some {reply : Reply} (hdown : turnedDown S chance r = some reply) :
    (handleRequest S chance r).executed = [] ∧
      (handleRequest S chance r).reply ≠ .unauthorized := by
  have heq : handleRequest S chance r = ⟨[], reply⟩ := by rw [handleRequest, hdown]
  rw [heq]
  refine ⟨rfl, ?_⟩
  unfold turnedDown at hdown
  split at hdown
  · obtain rfl := Option.some.inj hdown
    simp
  · split at hdown
    · obtain rfl := Option.some.inj hdown
      simp
    · cases hdown

theorem route_reply : (route S chance r).reply ≠ .unauthorized := by
  by_cases hresp : (tryDynamicRoute S chance r).2 = true
  · simp [route, hresp]
  · cases hb : findBuiltin r <;> simp [route, hresp, hb]

/-- A chain has a first function. -/
theorem dispatch_ne_nil (chance : Chance) (mws : List H) (handler : H) :
    dispatch chance mws handler ≠ [] := by
  unfold dispatch
  split <;> simp

/-- At the path `/health` the server has one handler. -/
theorem findBuiltin_health (hpath : r.path = "/health".toList) {b : Builtin}
    (h : findBuiltin r = some b) : b = .health := by
  obtain ⟨rest, htarget⟩ : ∃ rest, r.target = "/health".toList ++ rest := by
    refine ⟨r.target.dropWhile (· != '?'), ?_⟩
    rw [← hpath, Request.path, List.takeWhile_append_dropWhile]
  have hprefix : ∀ s ∈ ["/dashboards/", "/pages/", "/user/", "/events/", "/balance/",
      "/queries/"], s.toList.isPrefixOf r.target = false := by
    rw [htarget]
    simp [List.isPrefixOf]
  have heql : ∀ s ∈ ["/dashboards", "/", "/kline", "/sync_state", "/contracts", "/schema",
      "/cache/stats", "/metrics", "/version", "/replay", "/stream", "/api/v1/stream"],
      (r.target == s.toList) = false := by
    rw [htarget]
    simp
  simp only [List.forall_mem_cons] at hprefix heql
  simp only [findBuiltin, hprefix, heql, Bool.or_false, Bool.and_false, Bool.false_eq_true,
    if_false] at h
  split at h
  · exact (Option.some.inj h).symm
  · cases h

/-- What is executed of a route of the scripts. -/
theorem mem_executed_route (chance : Chance) {route' : Js H × HttpRoute H}
    (hdyn : dynamicRoute S r = some route') :
    ∃ f, Handler.js f ∈ (route S chance r).executed := by
  obtain ⟨js, rt⟩ := route'
  obtain ⟨f, rest, hcons⟩ := List.exists_cons_of_ne_nil
    (dispatch_ne_nil chance js.httpMiddlewares rt.handler)
  have htry : (tryDynamicRoute S chance r).1 = .js f :: rest.map .js := by
    rw [tryDynamicRoute, hdyn]
    change (dispatch chance js.httpMiddlewares rt.handler).map Handler.js = _
    rw [hcons, List.map_cons]
  refine ⟨f, ?_⟩
  by_cases hresp : (tryDynamicRoute S chance r).2 = true
  · simp [route, hresp, htry]
  · cases hb : findBuiltin r <;> simp [route, hresp, hb, htry]

theorem executed_route_health (hdyn : dynamicRoute S r = none)
    (hpath : r.path = "/health".toList) :
    ∀ h ∈ (route S chance r).executed, h = .builtin .health := by
  have htry : tryDynamicRoute S chance r = ([], false) := by rw [tryDynamicRoute, hdyn]
  intro h hmem
  unfold route at hmem
  rw [htry] at hmem
  simp only [Bool.false_eq_true, if_false] at hmem
  split at hmem
  · next b hb =>
    obtain rfl := findBuiltin_health hpath hb
    simpa using hmem
  · simp at hmem

/-- **When the token guards the handlers.** -/
theorem guarded_iff_sound (htoken : S.apiToken ≠ []) (hm : r.method ≠ .options) :
    Guarded S chance r ↔ Sound S chance r := by
  cases hdown : turnedDown S chance r with
  | some reply =>
    obtain ⟨hexec, hreply⟩ := handleRequest_of_some hdown
    refine iff_of_true ⟨fun _ h hmem => ?_, fun _ => hreply⟩ ⟨?_, ?_⟩
    · rw [hexec] at hmem
      cases hmem
    · simp [hdown]
    · simp [hdown]
  | none =>
    have hserved := handleRequest_of_none hdown hm
    by_cases hpass : Auth.routeAllowed S.apiToken false r.path r.headBuffer = true
    · rw [if_neg (by simp [hpass])] at hserved
      constructor
      · intro h
        refine ⟨fun _ hno hpath => ?_, fun _ hyes => ?_⟩
        · by_contra hdyn
          obtain ⟨route', hroute⟩ := Option.ne_none_iff_exists'.1 hdyn
          obtain ⟨f, hf⟩ := mem_executed_route chance hroute
          have := h.shut hno (.js f) (by rwa [hserved])
          cases this
        · exact ((routeAllowed_iff htoken).1 hpass).symm.imp (fun h => h.2) id
      · intro h
        refine ⟨fun hno => ?_, fun _ => by rw [hserved]; exact route_reply⟩
        have hpath : r.path = "/health".toList :=
          ((routeAllowed_iff htoken).1 hpass).resolve_right fun h => hno h.1
        rw [hserved]
        exact executed_route_health (h.shut hdown hno hpath) hpath
    · rw [if_pos (by simpa using hpass)] at hserved
      rw [routeAllowed_iff htoken, not_or] at hpass
      obtain ⟨hpath, hnot⟩ := hpass
      constructor
      · intro h
        refine ⟨fun _ _ hp => absurd hp hpath, fun _ hyes => ?_⟩
        exact absurd (by rw [hserved]) (h.admits hyes)
      · intro h
        refine ⟨fun _ x hx => ?_, fun hyes => ?_⟩
        · rw [hserved] at hx
          cases hx
        · rcases h.admits hdown hyes with htrim | hp
          · exact absurd ⟨hyes, htrim⟩ hnot
          · exact absurd hp hpath

/-- A server with a token, and a route of the scripts for `/health`. -/
def shadowed : Server Text where
  apiToken := "secret".toList
  js := some { httpRoutes := [⟨.get, "/:page".toList, "handler".toList⟩] }

/-- A request without a token. -/
def anonymous (target : String) : Request where
  method := .get
  target := target.toList
  headBuffer := "GET / HTTP/1.1\r\nHost: localhost\r\n\r\n".toList

theorem not_presents_anonymous (target : String) :
    ¬Auth.Presents "secret".toList (anonymous target).headBuffer := by
  intro h
  have hallowed := (Auth.requestAllowed_iff (by decide)).2 ⟨h, by decide⟩
  revert hallowed
  change ¬Auth.requestAllowed "secret".toList
    "GET / HTTP/1.1\r\nHost: localhost\r\n\r\n".toList = true
  decide +kernel

/-- **The token does not guard a route of the scripts that matches `/health`.** -/
theorem not_guarded_shadowed : ¬Guarded shadowed {} (anonymous "/health") := by
  intro h
  have hexec := h.shut (not_presents_anonymous "/health") (.js "handler".toList)
    (by decide +kernel)
  cases hexec

theorem guarded_iff_sound_shadowed :
    Guarded shadowed {} (anonymous "/metrics") ↔ Sound shadowed {} (anonymous "/metrics") :=
  guarded_iff_sound (by decide) (by decide)

end Guard

end Zponder.Http
