import Brust.Core.KeyExpr

/-!
# Core — what a key expression reads

`request_reads` lists what a request can change in an expression's value.  The list is complete
(`request_reads_complete`): requests that agree on what is fixed for a path and on each listed read
have one value.
-/

namespace Brust.Core

namespace Expr

/-- `out` with a read that it does not have yet. -/
def push (out : List String) (r : String) : List String := if r ∈ out then out else out ++ [r]

mutual

/-- The reads of an expression after those before it, as written, without repeats. -/
def walk : Expr → List String → List String
  | .header n, out => push out ("header(" ++ n ++ ")")
  | .cookie n, out => push out ("cookie(" ++ n ++ ")")
  | .query n, out => push out ("query(" ++ n ++ ")")
  | .request f, out => if f = "host" then push out "request(host)" else out
  | .param _, out => out
  | .env _, out => out
  | .lit _, out => out
  | .or args, out => walkAll args out
  | .and args, out => walkAll args out
  | .concat args, out => walkAll args out
  | .eq a b v, out => walkOpt v (walk b (walk a out))
  | .lower a, out => walk a out
  | .upper a, out => walk a out

def walkAll : List Expr → List String → List String
  | [], out => out
  | e :: es, out => walkAll es (walk e out)

def walkOpt : Option Expr → List String → List String
  | none, out => out
  | some e, out => walk e out

end

def requestReads (e : Expr) : List String := e.walk []

end Expr

/-- Two requests agree on what is fixed for a path. -/
structure EvalCtx.SamePath (c c' : EvalCtx) : Prop where
  params : c.params = c'.params
  method : c.method = c'.method
  scheme : c.scheme = c'.scheme
  path : c.path = c'.path

/-- Two requests agree on each read of a list. -/
structure EvalCtx.AgreesOn (reads : List String) (c c' : EvalCtx) : Prop where
  header : ∀ n, "header(" ++ n ++ ")" ∈ reads → lookup c.headers n = lookup c'.headers n
  cookie : ∀ n, "cookie(" ++ n ++ ")" ∈ reads → lookup c.cookies n = lookup c'.cookies n
  query : ∀ n, "query(" ++ n ++ ")" ∈ reads → lookup c.query n = lookup c'.query n
  host : "request(host)" ∈ reads → c.host = c'.host

/-! ### A walk keeps what was read -/

namespace Expr

theorem subset_push (out : List String) (r : String) : out ⊆ push out r := by
  unfold push
  split
  · exact List.Subset.refl out
  · exact List.subset_append_left out [r]

theorem mem_push (out : List String) (r : String) : r ∈ push out r := by
  unfold push
  split
  next h => exact h
  next => simp

mutual

theorem subset_walk : ∀ (e : Expr) (out : List String), out ⊆ e.walk out
  | .header _, out | .cookie _, out | .query _, out => subset_push out _
  | .request f, out => by
      rw [walk]
      split
      · exact subset_push out _
      · exact List.Subset.refl out
  | .param _, out | .env _, out | .lit _, out => List.Subset.refl out
  | .or args, out | .and args, out | .concat args, out => subset_walkAll args out
  | .eq a b v, out =>
      List.Subset.trans (List.Subset.trans (subset_walk a out) (subset_walk b _))
        (subset_walkOpt v _)
  | .lower a, out | .upper a, out => subset_walk a out

theorem subset_walkAll : ∀ (es : List Expr) (out : List String), out ⊆ walkAll es out
  | [], out => List.Subset.refl out
  | e :: es, out => List.Subset.trans (subset_walk e out) (subset_walkAll es _)

theorem subset_walkOpt : ∀ (v : Option Expr) (out : List String), out ⊆ walkOpt v out
  | none, out => List.Subset.refl out
  | some e, out => subset_walk e out

end

end Expr

/-! ### Completeness -/

theorem EvalCtx.AgreesOn.mono {c c' : EvalCtx} {reads reads' : List String}
    (h : c.AgreesOn reads' c') (hsub : reads ⊆ reads') : c.AgreesOn reads c' :=
  ⟨fun n hn => h.header n (hsub hn), fun n hn => h.cookie n (hsub hn),
    fun n hn => h.query n (hsub hn), fun hn => h.host (hsub hn)⟩

namespace Expr
variable {c c' : EvalCtx}

mutual

/-- An expression whose reads are among those that the requests agree on. -/
theorem eval_eq (hpath : c.SamePath c') : ∀ (e : Expr) (out : List String),
    c.AgreesOn (e.walk out) c' → e.eval c = e.eval c'
  | .header n, out, h => h.header n (mem_push out _)
  | .cookie n, out, h => h.cookie n (mem_push out _)
  | .query n, out, h => h.query n (mem_push out _)
  | .param n, _, _ => by rw [eval, eval, hpath.params]
  | .request f, out, h => by
      rw [eval, eval, hpath.method, hpath.scheme, hpath.path]
      split
      next hf =>
        rw [walk, if_pos hf] at h
        exact h.host (mem_push out _)
      next => rfl
  | .env _, _, _ | .lit _, _, _ => by rw [eval, eval]
  | .or args, out, h => by rw [eval, eval, evalAll_eq hpath args out h]
  | .and args, out, h => by rw [eval, eval, evalAll_eq hpath args out h]
  | .concat args, out, h => by rw [eval, eval, evalAll_eq hpath args out h]
  | .eq a b v, out, h => by
      have hb := h.mono (subset_walkOpt v _)
      rw [eval, eval, eval_eq hpath a out (hb.mono (subset_walk b _)), eval_eq hpath b _ hb,
        evalOpt_eq hpath v _ h]
  | .lower a, out, h | .upper a, out, h => by rw [eval, eval, eval_eq hpath a out h]

theorem evalAll_eq (hpath : c.SamePath c') : ∀ (es : List Expr) (out : List String),
    c.AgreesOn (walkAll es out) c' → evalAll c es = evalAll c' es
  | [], _, _ => by rw [evalAll, evalAll]
  | e :: es, out, h => by
      rw [evalAll, evalAll, eval_eq hpath e out (h.mono (subset_walkAll es _)),
        evalAll_eq hpath es _ h]

theorem evalOpt_eq (hpath : c.SamePath c') : ∀ (v : Option Expr) (out : List String),
    c.AgreesOn (walkOpt v out) c' → evalOpt c v = evalOpt c' v
  | none, _, _ => by rw [evalOpt, evalOpt]
  | some e, out, h => by rw [evalOpt, evalOpt, eval_eq hpath e out h]

end

end Expr

/-- **`request_reads` is complete.** -/
theorem request_reads_complete (e : Expr) (c c' : EvalCtx) (hpath : c.SamePath c')
    (h : c.AgreesOn e.requestReads c') : e.eval c = e.eval c' := e.eval_eq hpath [] h

/-- A request's session is not read by a key of its tenant and its currency. -/
theorem request_reads_complete_session :
    let e : Expr := .concat [.header "X-Tenant", .or [.lower (.cookie "currency"), .lit "thb"]]
    let c : EvalCtx := ⟨[("x-tenant", "acme")], [("Currency", "USD")], [], [], "GET", "", "", "/"⟩
    e.eval c = e.eval { c with cookies := ("session", "s1") :: c.cookies } := by
  intro e c
  have hreads : e.requestReads = ["header(X-Tenant)", "cookie(currency)"] := by decide +kernel
  refine request_reads_complete e c _ ⟨rfl, rfl, rfl, rfl⟩
    ⟨fun _ _ => rfl, fun n hn => ?_, fun _ _ => rfl, fun _ => rfl⟩
  obtain rfl : n = "currency" := by
    rw [hreads] at hn
    rcases List.mem_cons.mp hn with h | h
    · have hlist := congrArg String.toList h
      simp only [String.toList_append] at hlist
      exact absurd (List.cons.inj hlist).1 (by decide)
    · have hlist := congrArg String.toList
        ((List.mem_singleton.mp h).trans (by decide : _ = "cookie(" ++ "currency" ++ ")"))
      simp only [String.toList_append] at hlist
      exact String.toList_inj.mp (List.append_cancel_left (List.append_cancel_right hlist))
  decide +kernel

end Brust.Core
