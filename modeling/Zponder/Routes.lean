import Zponder.Server

/-!
# The parameters of a dynamic route

The scripts register routes whose patterns have segments such as `:id`. The routes are tried in the
order they were registered, and `matchPath` writes into one map while it goes over the
segments of a path. It takes nothing back when a segment does not fit, and it does not overwrite:
what the routes that were tried before have left is seen by the handler
(`Zponder.Routes.lookup_handleHttpRequest`). The parameters of the route are seen as they are just
when the earlier routes have left nothing else (`Zponder.Routes.bound_iff`).
-/

namespace Zponder

namespace Routes

open Http

variable {H : Type}

/-! ### The handler of a request -/

/-- The map of the parameters. A name is in it once. -/
abbrev Params : Type := List (Text × Text)

/-- A name that is there keeps its value. -/
def put (params : Params) (name value : Text) : Params :=
  if params.lookup name = none then params ++ [(name, value)] else params

/-- The loop of `matchPath` over the segments. -/
def goOver : List Text → List Text → Params → Bool × Params
  | [], [], params => (true, params)
  | p :: ps, a :: as, params =>
    if p.head? = some ':' then goOver ps as (put params p.tail a)
    else if p = a then goOver ps as params
    else (false, params)
  | _, _, params => (false, params)

/-- `matchPath` -/
def matchPath (pattern path : Text) (params : Params) : Bool × Params :=
  goOver (pattern.splitOn '/') (path.splitOn '/') params

/-- `matchRoute` -/
def matchRoute (method : JsMethod) (path : Text) :
    List (HttpRoute H) → Params → Option (HttpRoute H × Params)
  | [], _ => none
  | r :: rs, params =>
    if r.method ≠ method then matchRoute method path rs params
    else
      let m := matchPath r.path path params
      if m.1 = true then some (r, m.2) else matchRoute method path rs m.2

/-- `handleHttpRequest`: the route whose handler is run, and the parameters it sees. -/
def handleHttpRequest (js : Js H) (method : JsMethod) (path : Text) :
    Option (HttpRoute H × Params) :=
  matchRoute method path js.httpRoutes []

/-! ### What it is to see -/

/-- The values of the segments with a name, up to one that does not fit. -/
def captures : List Text → List Text → Params
  | p :: ps, a :: as =>
    if p.head? = some ':' then (p.tail, a) :: captures ps as
    else if p = a then captures ps as
    else []
  | _, _ => []

/-- **The parameters of a route** that a path matches. -/
def paramsOf (r : HttpRoute H) (path : Text) : Params :=
  captures (r.path.splitOn '/') (path.splitOn '/')

/-- The method is that of the route, and the path matches it. -/
def fits (method : JsMethod) (path : Text) (r : HttpRoute H) : Bool :=
  r.method == method && Http.matchPath r.path path

/-- What the routes leave that are tried before. -/
def left (method : JsMethod) (path : Text) (routes : List (HttpRoute H)) : Params :=
  ((routes.takeWhile fun r => !fits method path r).filter fun r => r.method == method).flatMap
    fun r => paramsOf r path

/-- **The handler of the first route that fits is run, and it sees the parameters of
that route.** -/
def Bound (js : Js H) (method : JsMethod) (path : Text) : Prop :=
  (handleHttpRequest js method path).map (·.1) = js.httpRoutes.find? (fits method path) ∧
    ∀ r params, handleHttpRequest js method path = some (r, params) →
      ∀ name, params.lookup name = (paramsOf r path).lookup name

/-! ### One route -/

section GoOver

variable {ps as : List Text} {params cs : Params} {name value : Text}

theorem lookup_append (xs ys : Params) (name : Text) :
    (xs ++ ys).lookup name = (xs.lookup name).or (ys.lookup name) := by
  induction xs with
  | nil => rfl
  | cons x xs ih =>
    obtain ⟨key, val⟩ := x
    rw [List.cons_append, List.lookup_cons, List.lookup_cons]
    cases name == key
    · exact ih
    · rfl

theorem lookup_put (params : Params) (name value name' : Text) :
    (put params name value).lookup name' = (params ++ [(name, value)]).lookup name' := by
  rw [put]
  split
  · rfl
  · next hthere =>
    rw [lookup_append, List.lookup_cons]
    by_cases heq : name' = name
    · rw [heq]
      cases hlookup : params.lookup name with
      | none => exact absurd hlookup hthere
      | some v => rfl
    · rw [beq_eq_false_iff_ne.2 heq]
      exact Option.or_none.symm

theorem goOver_fst : (goOver ps as params).1 = matchSegments ps as := by
  induction ps generalizing as params with
  | nil => cases as <;> rfl
  | cons p ps ih =>
    cases as with
    | nil => rfl
    | cons a as =>
      rw [goOver, matchSegments]
      split
      · next hname => rw [ih, hname, beq_self_eq_true, Bool.true_or, Bool.true_and]
      · next hname =>
        rw [beq_eq_false_iff_ne.2 hname, Bool.false_or]
        split
        · next heq => rw [ih, beq_iff_eq.2 heq, Bool.true_and]
        · next heq => rw [beq_eq_false_iff_ne.2 heq, Bool.false_and]

/-- **Nothing is taken back**: whether the path matches or not, what was bound stays. -/
theorem lookup_goOver (name : Text) :
    (goOver ps as params).2.lookup name = (params ++ captures ps as).lookup name := by
  induction ps generalizing as params with
  | nil => cases as <;> exact congrArg (List.lookup name) (List.append_nil params).symm
  | cons p ps ih =>
    cases as with
    | nil => exact congrArg (List.lookup name) (List.append_nil params).symm
    | cons a as =>
      rw [goOver, captures]
      split
      · rw [ih, lookup_append, lookup_put, ← lookup_append, List.append_assoc]
        rfl
      split
      · exact ih
      · rw [List.append_nil]

end GoOver

/-! ### All routes -/

section MatchRoute

variable {method : JsMethod} {path : Text} {routes : List (HttpRoute H)} {params : Params}

theorem matchPath_fst (r : HttpRoute H) (params : Params) :
    (Routes.matchPath r.path path params).1 = Http.matchPath r.path path := goOver_fst

theorem matchRoute_fst :
    (matchRoute method path routes params).map (·.1) = routes.find? (fits method path) := by
  induction routes generalizing params with
  | nil => rfl
  | cons r rs ih =>
    rw [matchRoute]
    by_cases hmethod : r.method = method
    · rw [if_neg (not_not_intro hmethod)]
      dsimp only
      have hfits : fits method path r = (matchPath r.path path params).1 := by
        rw [fits, hmethod, beq_self_eq_true, Bool.true_and, matchPath_fst]
      by_cases hmatch : (matchPath r.path path params).1 = true
      · rw [if_pos hmatch, List.find?_cons_of_pos (hfits.trans hmatch)]
        rfl
      · rw [if_neg hmatch, ih, List.find?_cons_of_neg (hfits ▸ hmatch)]
    · have hfits : ¬fits method path r = true := fun h => by
        rw [fits, Bool.and_eq_true, beq_iff_eq] at h
        exact hmethod h.1
      rw [if_pos hmethod, ih, List.find?_cons_of_neg hfits]

theorem left_cons_of_fits {r : HttpRoute H} (h : fits method path r = true) :
    left method path (r :: routes) = [] := by
  rw [left, List.takeWhile_cons_of_neg (by simp [h])]
  rfl

theorem left_cons_of_not_fits {r : HttpRoute H} (h : ¬fits method path r = true) :
    left method path (r :: routes) =
      (if r.method = method then paramsOf r path else []) ++ left method path routes := by
  rw [left, List.takeWhile_cons_of_pos (by simp [h])]
  split
  · next hmethod =>
    rw [List.filter_cons_of_pos (by rw [hmethod, beq_self_eq_true]), List.flatMap_cons]
    rfl
  · next hmethod =>
    rw [List.filter_cons_of_neg (by rwa [beq_iff_eq])]
    rfl

/-- **What a handler sees**: first what the routes before have left, and then what is its own. -/
theorem lookup_matchRoute {r : HttpRoute H} {params' : Params}
    (h : matchRoute method path routes params = some (r, params')) (name : Text) :
    params'.lookup name = (params ++ (left method path routes ++ paramsOf r path)).lookup name := by
  induction routes generalizing params with
  | nil => cases h
  | cons r₀ rs ih =>
    rw [matchRoute] at h
    by_cases hmethod : r₀.method = method
    · rw [if_neg (not_not_intro hmethod)] at h
      dsimp only at h
      have hfits : fits method path r₀ = (matchPath r₀.path path params).1 := by
        rw [fits, hmethod, beq_self_eq_true, Bool.true_and, matchPath_fst]
      have hleft : ∀ name', (matchPath r₀.path path params).2.lookup name' =
          (params ++ paramsOf r₀ path).lookup name' := lookup_goOver
      by_cases hmatch : (matchPath r₀.path path params).1 = true
      · rw [if_pos hmatch] at h
        obtain ⟨rfl, rfl⟩ := Prod.mk.inj (Option.some.inj h)
        rw [left_cons_of_fits (hfits.trans hmatch), List.nil_append]
        exact hleft name
      · rw [if_neg hmatch] at h
        rw [ih h, left_cons_of_not_fits (hfits ▸ hmatch), if_pos hmethod, lookup_append, hleft,
          ← lookup_append, List.append_assoc, List.append_assoc]
    · have hfits : ¬fits method path r₀ = true := fun hfits => by
        rw [fits, Bool.and_eq_true, beq_iff_eq] at hfits
        exact hmethod hfits.1
      rw [if_pos hmethod] at h
      rw [ih h, left_cons_of_not_fits hfits, if_neg hmethod, List.nil_append]

end MatchRoute

/-! ### Where the parameters are those of the route -/

section Bound

variable {js : Js H} {method : JsMethod} {path : Text}

/-- What a handler sees of a request. -/
theorem lookup_handleHttpRequest {r : HttpRoute H} {params : Params}
    (h : handleHttpRequest js method path = some (r, params)) (name : Text) :
    params.lookup name =
      ((left method path js.httpRoutes).lookup name).or ((paramsOf r path).lookup name) := by
  rw [lookup_matchRoute h, List.nil_append, lookup_append]

/-- **The parameters are those of the route** if and only if the routes that were tried before have
left nothing but what is among them too. -/
theorem bound_iff (js : Js H) (method : JsMethod) (path : Text) :
    Bound js method path ↔
      ∀ r, js.httpRoutes.find? (fits method path) = some r →
        ∀ name value, (left method path js.httpRoutes).lookup name = some value →
          (paramsOf r path).lookup name = some value := by
  have hfirst : (handleHttpRequest js method path).map (·.1) =
      js.httpRoutes.find? (fits method path) := matchRoute_fst
  constructor
  · intro hbound r hr name value hvalue
    rw [← hfirst] at hr
    obtain ⟨⟨r', params⟩, hhandle, rfl⟩ := Option.map_eq_some_iff.1 hr
    rw [← hbound.2 _ _ hhandle, lookup_handleHttpRequest hhandle, hvalue, Option.some_or]
  · intro hleft
    refine ⟨hfirst, fun r params hhandle name => ?_⟩
    rw [lookup_handleHttpRequest hhandle]
    cases hvalue : (left method path js.httpRoutes).lookup name with
    | none => exact Option.none_or
    | some value =>
      have hr : js.httpRoutes.find? (fits method path) = some r := by
        rw [← hfirst, hhandle]
        rfl
      rw [hleft r hr name value hvalue, Option.some_or]

/-- Two routes share the name of a parameter, and the first of them fits only so far. -/
theorem not_bound_shared : ¬Bound (H := Nat)
    { httpRoutes := [⟨.get, "/a/:id/x".toList, 0⟩, ⟨.get, "/:id/b/y".toList, 1⟩] }
    .get "/a/b/y".toList := by
  intro hbound
  have hsees := hbound.2 ⟨.get, "/:id/b/y".toList, 1⟩ [("id".toList, "b".toList)] (by rfl) "id".toList
  exact absurd hsees (by decide)

end Bound

end Routes

end Zponder
