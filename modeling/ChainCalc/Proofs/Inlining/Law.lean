import ChainCalc.Proofs.Evaluation.Application
import ChainCalc.Proofs.Inlining.Compile
import ChainCalc.Proofs.Redefinition.Sequels
/-!
# The beta law — a function called is its body with the arguments in place

Wherever a session comes to, a function without a name called with values does what its body does where the parameters are
bound to these values (`beta_law`): one compiles if and only if the other does, one ends if the other does, with the same
value unless that is a function, or with the same fault.  The call alone may go too deep, since it is one call more.

So depths and indices mean what the text says: a parameter is the argument of the call that it was written for, whatever
functions were made, handed on and called in between.
-/
namespace ChainCalc

/-! ### The law -/

def Expr.lambda (params : List String) (body : Expr) : Expr := .call "lambda" (params.map Expr.ident ++ [body])

def Overflows (r : Except EvalError Value) : Prop := ∃ e, r = .error e ∧ e.fault.isOverflow = true

/-- **The same end**: the same value, or functions of the same text, or errors with the same fault. -/
inductive SameEnd : Except EvalError Value → Except EvalError Value → Prop
  | value {v : Value} (plain : v.asFunction? = none) : SameEnd (.ok v) (.ok v)
  | functions {f f' : Closure} (same : (Value.function f').text = (Value.function f).text) :
      SameEnd (.ok (.function f)) (.ok (.function f'))
  | fault {e e' : EvalError} (same : e'.fault = e.fault) : SameEnd (.error e) (.error e')

/-- **The beta law**, in an environment, a frame and a context, for a function and its arguments.  The function compiles if
and only if its body does where the parameters are constants; and then the function that it evaluates to, called with the
arguments, comes to the same end as that body in the same frame, but that it may go too deep. -/
structure BetaLaw (w : Workspace) (env : Env) (frame : Frame) (ctx : Context) (params : List String) (body : Expr)
    (values : List Value) : Prop where
  compiles : Accepts w env (.lambda params body) ↔
    Accepts (w.valueEnv env (params.zip values)).2 (w.valueEnv env (params.zip values)).1 body
  agrees : ∀ {node node' w₁ w₂}, Makes .standard w env (.lambda params body) node w₁ →
    Makes .standard (w.valueEnv env (params.zip values)).2 (w.valueEnv env (params.zip values)).1 body node' w₂ →
    ∃ f, Evaluates w₁ node frame ctx (.ok (.function f)) ∧ ∀ site,
      (∀ r', Evaluates w₂ node' frame ctx r' → ∃ r, Calls w₁ f values ctx site r) ∧
      ∀ r, Calls w₁ f values ctx site r → Overflows r ∨ ∃ r', Evaluates w₂ node' frame ctx r' ∧ SameEnd r r'

/-! ### The function compiled -/

theorem mapM_asIdent?_map_ident : ∀ params : List String, (params.map Expr.ident).mapM Expr.asIdent? = some params
  | [] => rfl
  | p :: params => by
    rw [List.map_cons, List.mapM_cons, mapM_asIdent?_map_ident params]
    rfl

/-- **The function compiles where its body does**, in the scope of its parameters, and is declared after that. -/
theorem makes_lambda {w w' : Workspace} {env : Env} {params : List String} {body : Expr} {node : Node} :
    Makes .standard w env (.lambda params body) node w' ↔ ∃ x w₁,
      Makes .standard (w.functionEnv env params).2 (w.functionEnv env params).1 body x w₁ ∧
      node = .lambda (w₁.declare "lambda" params (env.depth + 1)).1 (some x) ∧
      w' = (w₁.declare "lambda" params (env.depth + 1)).2.setBody (w₁.declare "lambda" params (env.depth + 1)).1 x := by
  obtain ⟨last', named'⟩ := lambda_args (params.map Expr.ident) body
  rw [mapM_asIdent?_map_ident] at named'
  rw [ChainCalc.makes_iff]
  constructor
  · intro h
    have called : ∀ {f : String} {args : List Expr}, (Expr.lambda params body).bare = .call f args → f = "lambda" := by
      intro f args form
      cases form
      rfl
    have special : ∀ {f : String} {args : List Expr}, (Expr.lambda params body).bare = .call f args → ¬ isSpecial f = false := by
      intro f args form plain
      rw [called form] at plain
      exact absurd plain (by decide)
    cases h with
    | lambda form last named entered made declared =>
      cases form
      rw [last'] at last
      rw [named'] at named
      cases last
      cases named
      cases entered
      cases declared
      exact ⟨_, _, makes_bare.1 made, rfl, rfl⟩
    | literal form | variableName form _ | parameterName form _ | functionName form _ => cases form
    | block form _ _ => exact absurd (called form) (by decide)
    | callFunction form plain _ _ | callVariable form plain _ _ | callParameter form plain _ _ => exact (special form plain).elim
    | pattern asks built =>
      generalize hbare : (Expr.lambda params body).bare = e at asks
      have short : e.isChain = false := hbare ▸ rfl
      cases asks with
      | name _ _ | unary _ _ => cases hbare
      | call plain _ => exact (special hbare plain).elim
      | chain long _ | regrouped long _ _ => exact Bool.noConfusion (short.symm.trans long)
  · rintro ⟨x, w₁, made, rfl, rfl⟩
    exact .lambda rfl last' named' rfl (makes_bare.2 made) rfl

/-! ### A workspace that has grown -/

section

variable {G : World} {Q : Env → Node → Prop} {w w' : Workspace}

theorem Node.Addressed.forget {L : Layout} {node : Node} (h : node.Addressed G w Q L) : node.Addressed G w (fun _ _ => True) L := by
  induction h with
  | mk root here _ ih =>
    obtain ⟨env, live, layout, -⟩ := root
    exact .mk ⟨env, live, layout, trivial⟩ here ih

theorem World.Ok.forget {pending : Definition → Prop} (ok : G.Ok Q pending w) : G.Ok (fun _ _ => True) pending w := by
  refine ⟨ok.placed, ok.depth, ok.around, ok.unique, fun env live name b bound => ?_, ok.homes, ok.same,
    fun d env home waits => ?_, ok.store⟩
  · have sound := ok.bindings env live name b bound
    cases b with
    | value node => exact Node.Addressed.forget sound
    | function d => exact sound
    | param depth index => exact sound
  · obtain ⟨body, known, addressed⟩ := ok.bodies d env home waits
    exact ⟨body, known, addressed.forget⟩

/-- **What is added to a workspace makes no difference** to nodes that were there. -/
theorem World.Ok.eval_extends (ok : G.Ok Q (fun _ => False) w) (ext : w.Extends w') (n : Nat) {L : Layout} {node : Node}
    {frame : Frame} {ctx : Context} (addressed : node.Addressed G w Q L) (fits : frame.Fits G w L) (store : ctx.store = w.store) :
    eval w' n node frame ctx = eval w n node frame ctx := by
  have plain : ∀ name label xs compute, (∃ L, (Node.kernel name label xs compute).Addressed G w Q L) → compute.Plain := by
    rintro name label xs compute ⟨L, ⟨-, plain, -⟩⟩
    exact plain
  have names : ∀ (node : Node) name env, (∃ L, node.Addressed G w Q L) → node.late? = some (name, env) →
      w'.lookup env name = w.lookup env name := by
    rintro node name env ⟨L, addressed⟩ late
    exact ext.lookup (ok.placed env (addressed.names late).1) name
  have bodies : ∀ d, (∃ env, G.home d env) → w'.body? d = w.body? d := by
    rintro d ⟨env, home⟩
    unfold Workspace.body?
    rw [ext.body d.id (ok.homes d env home).2.2]
  have within : Frame.Within (fun d => ∃ env, G.home d env) frame := fun a ha v hv d holds => (fits.values a ha v hv).home holds
  exact (((ok.closed.lawful plain names bodies).inStep n).node ⟨⟨⟨L, addressed⟩, within, store⟩, rfl, rfl, rfl⟩).eq
    (fun _ _ h => h.2.symm)

end

/-! ### The function called -/

theorem Workspace.body?_setBody_declare (w : Workspace) (name : String) (params : List String) (depth : Nat) (body : Node) :
    ((w.declare name params depth).2.setBody (w.declare name params depth).1 body).body? (w.declare name params depth).1 =
      some body := by
  show (((w.bodies.push none).setIfInBounds w.bodies.size (some body))[w.bodies.size]?).join = some body
  rw [Array.getElem?_setIfInBounds_self_of_lt (by simp)]
  rfl

theorem calls_iff_runBody {w : Workspace} {d : Definition} {captured : Frame} {args : List Value} {ctx : Context} {site : String}
    {r : Except EvalError Value} (full : d.params.length = args.length) :
    Calls w ⟨d, captured, []⟩ args ctx site r ↔ ∃ n, (runBody w n ⟨d, captured, []⟩ args ctx site).run = some r := by
  have step : ∀ n, call w (n + 1) ⟨d, captured, []⟩ args ctx site = runBody w n ⟨d, captured, []⟩ args ctx site := by
    intro n
    rw [call_of_enough w ⟨d, captured, []⟩ ctx site n (Nat.le_of_eq full)]
    have none_left : ((([] : List Value) ++ args).drop d.params.length).isEmpty = true := by simp [full]
    refine Eq.trans (congrArg _ (funext fun result => ?_)) (bind_pure _)
    exact if_pos none_left
  constructor
  · rintro ⟨n, h⟩
    cases n with
    | zero => rw [call] at h; cases h
    | succ n => exact ⟨n, by rw [← step]; exact h⟩
  · rintro ⟨n, h⟩
    exact ⟨n + 1, by rw [step]; exact h⟩

theorem Context.push_cases (ctx : Context) (name site : String) :
    (∃ e, ctx.push name site = .error e ∧ e.fault.isOverflow = true) ∨
    ∃ inner, ctx.push name site = .ok inner ∧ inner.store = ctx.store ∧ inner.locality = ctx.locality ∧
      inner.maxCallDepth = ctx.maxCallDepth ∧ ctx.depth ≤ inner.depth := by
  cases pushed : ctx.push name site with
  | error e =>
    obtain ⟨-, rfl⟩ := Context.push_eq_error.1 pushed
    exact .inl ⟨_, rfl, rfl⟩
  | ok inner =>
    obtain ⟨-, rfl⟩ := Context.push_eq_ok.1 pushed
    exact .inr ⟨_, rfl, rfl, rfl, rfl, Nat.le_succ _⟩

namespace Inlining

variable {ι : Inlining}

theorem sameEnd {r s : Except EvalError Value} (h : Tallies (Value.Inlined ι) r s) :
    (∃ e, r = .error e ∧ e.Stops) ∨ SameEnd r s := by
  cases h with
  | stopped stops s => exact .inl ⟨_, rfl, stops⟩
  | error fault => exact .inr (.fault fault)
  | ok hv =>
    obtain ⟨rfl, plain⟩ | ⟨f, f', rfl, rfl, text⟩ := (Value.counterparts_inlined ι).unseen.shape hv
    · exact .inr (.value plain)
    · exact .inr (.functions text)

variable (ι) {frame : Frame} (fits : frame.Fits ι.world ι.workspace (ι.workspace.layout ι.env.path))

include fits

/-- **The frame of the call** has the arguments and what is around the function. -/
theorem frame_inlined : Frame.Inlined ι true (Frame.enter (frame.truncate ι.depth) (ι.depth + 1) ι.args) frame := by
  refine .body (List.forall₂_same.2 ?_)
  rintro ⟨depth, args⟩ mem
  exact .mk depth (List.forall₂_same.2 (fun v hv => (fits.values _ (Frame.mem_truncate mem) v hv).inlined))

theorem frame_fits {G : World} {w : Workspace} (le : ι.world.Le ι.workspace G w) :
    (Frame.enter (frame.truncate ι.depth) (ι.depth + 1) ι.args).Fits G w
      (ι.workspace.layout ι.env.path ++ [ι.args.length]) := by
  have depth : (ι.workspace.layout ι.env.path).length = ι.depth := ι.ok.depth ι.env ι.live
  constructor
  · rw [← depth]
    exact (fits.covers.truncate List.prefix_rfl).enter (Frame.depth_le_of_mem_truncate fits.covers.decreasing) ι.args
  · refine List.forall_mem_cons.2 ⟨fun v hv => le.value (ι.sound v hv), fun a ha v hv => ?_⟩
    exact le.value (fits.values a (Frame.mem_truncate ha) v hv)

omit fits in
theorem body_addressed {params : List String} {body : Expr} {x : Node} {w : Workspace}
    (made : Makes .standard (ι.workspace.functionEnv ι.env params).2 (ι.workspace.functionEnv ι.env params).1 body x w) :
    ∃ G, ι.world.Le ι.workspace G w ∧ G.Ok (fun _ _ => True) (fun _ => False) w ∧
      x.Addressed G w (fun _ _ => True) (ι.workspace.layout ι.env.path ++ [params.length]) := by
  obtain ⟨G₁, le₁, ok₁, live, layout⟩ := ι.ok.functionEnv ι.live (rfl : ι.workspace.functionEnv ι.env params = _)
  obtain ⟨n, made⟩ := made
  obtain ⟨G₂, le₂, ok₂, addressed⟩ := World.traced_sound n ok₁ live (traced_of_gives made)
  rw [layout] at addressed
  exact ⟨G₂, le₁.trans le₂, ok₂, addressed⟩

variable {params : List String} (full : params.length = ι.args.length) {ctx : Context} (store : ctx.store = ι.workspace.store)

include full store

/-- **The call comes to the end that the body comes to where the arguments are constants.** -/
theorem agrees {body : Expr} {x x' : Node} {w w₁ w' : Workspace}
    (made : Makes .standard (ι.workspace.functionEnv ι.env params).2 (ι.workspace.functionEnv ι.env params).1 body x w)
    (inlined : x.Inlined ι true x') (hw : w.Inlined ι w') (ext : w.Extends w₁) {d : Definition} (known : w₁.body? d = some x)
    (depth : d.depth = ι.depth + 1) (arity : d.params = params) (site : String) :
    (∀ r', Evaluates w' x' frame ctx r' → ∃ r, Calls w₁ ⟨d, frame.truncate ι.depth, []⟩ ι.args ctx site r) ∧
    ∀ r, Calls w₁ ⟨d, frame.truncate ι.depth, []⟩ ι.args ctx site r →
      Overflows r ∨ ∃ r', Evaluates w' x' frame ctx r' ∧ SameEnd r r' := by
  simp only [calls_iff_runBody (arity ▸ full : d.params.length = ι.args.length)]
  unfold runBody
  rw [show w₁.body? (Closure.definition ⟨d, frame.truncate ι.depth, []⟩) = some x from known]
  obtain ⟨e, pushed, overflows⟩ | ⟨inner, pushed, store', locality, limit, deeper⟩ := ctx.push_cases d.name site
  · -- there is no room for the call
    dsimp only
    rw [pushed]
    refine ⟨fun _ _ => ⟨.error e, 0, rfl⟩, ?_⟩
    rintro r ⟨n, h⟩
    cases h
    exact .inl ⟨e, rfl, overflows⟩
  · obtain ⟨G, le, ok, addressed⟩ := ι.body_addressed made
    rw [full] at addressed
    have fits' := ι.frame_fits fits le
    have hstore : inner.store = w.store := (store'.trans store).trans hw.left.store.symm
    have hctx : inner.Inlined ι ctx :=
      ⟨fun s hs => ι.ok.store s ((store'.trans store) ▸ hs), store'.symm, locality.symm, limit.symm, deeper⟩
    have runs : ∀ n, (Run.ofExcept (ctx.push d.name site) >>= fun inner =>
        eval w₁ n x (Frame.enter (frame.truncate ι.depth) d.depth (ι.args.take d.params.length)) inner).run =
        (eval w n x (Frame.enter (frame.truncate ι.depth) (ι.depth + 1) ι.args) inner).run := by
      intro n
      rw [pushed, depth, arity, full, List.take_length, ← ok.eval_extends ext n addressed fits' hstore]
      rfl
    have follows : ∀ n, Run.Inlines (Value.Inlined ι) (eval w n x (Frame.enter (frame.truncate ι.depth) (ι.depth + 1) ι.args) inner)
        (eval w' n x' frame ctx) (eval w' (n + 1) x' frame ctx) :=
      fun n => (hw.lawful.inStep n).node ⟨true, inlined, ι.frame_inlined fits, hctx⟩
    constructor
    · rintro r' ⟨n, h⟩
      obtain ⟨r, hr, -⟩ := (follows n).back r' h
      exact ⟨r, n, (runs n).trans hr⟩
    · rintro r ⟨n, h⟩
      have h := (runs n).symm.trans h
      -- no address leads nowhere, so only an overflow stops the call
      have stopped : (∃ e, r = .error e ∧ e.Stops) → Overflows r := by
        rintro ⟨e, rfl, overflows | misses⟩
        · exact ⟨e, rfl, overflows⟩
        · have sound := ((ok.sound n).1 addressed fits' (fun s hs => ok.store s (hstore ▸ hs))).2 e h
          exact Bool.noConfusion (sound.symm.trans misses)
      rcases (follows n).forth r h with stops | ⟨r', hr', tallies⟩
      · exact .inl (stopped stops)
      · rcases sameEnd tallies with stops | same
        · exact .inl (stopped stops)
        · exact .inr ⟨r', ⟨n + 1, hr'⟩, same⟩

end Inlining

/-- **The beta law holds where the invariant does**, in every environment in use, in frames that cover it. -/
theorem World.Ok.beta {G : World} {Q : Env → Node → Prop} {w : Workspace} (ok : G.Ok Q (fun _ => False) w)
    (holds : Discipline.standard.Holds w) {env : Env} (live : G.live env) {frame : Frame}
    (fits : frame.Fits G w (w.layout env.path)) {ctx : Context} (store : ctx.store = w.store) {params : List String}
    {values : List Value} (full : params.length = values.length) (sound : ∀ v ∈ values, v.Sound G w) (body : Expr) :
    BetaLaw w env frame ctx params body values := by
  let ι : Inlining := ⟨G, w, env, values, ok.forget, holds, live, sound⟩
  constructor
  · constructor
    · rintro ⟨node, w', made⟩
      obtain ⟨x, w₁, made, -, -⟩ := makes_lambda.1 made
      obtain ⟨x', w', made', -, -⟩ := ι.makes_values full made
      exact ⟨x', w', made'⟩
    · rintro ⟨x', w', made'⟩
      obtain ⟨x, w₁, made⟩ := ι.makes_params full made'
      exact ⟨_, _, makes_lambda.2 ⟨x, w₁, made, rfl, rfl⟩⟩
  · intro node node' w₁ w₂ made made'
    obtain ⟨x, w₀, inside, rfl, rfl⟩ := makes_lambda.1 made
    obtain ⟨x', w', inside', inlined, hw⟩ := ι.makes_values full inside
    obtain ⟨rfl, rfl⟩ := inside'.unique made'
    have new : w₀.bodies.size ≤ (w₀.declare "lambda" params (env.depth + 1)).1.id := Nat.le_refl _
    have ext := (w₀.extends_declare "lambda" params (env.depth + 1)).setBody new x
    exact ⟨⟨_, frame.truncate env.depth, []⟩, ⟨1, rfl⟩, fun site =>
      ι.agrees fits full store inside inlined hw ext (w₀.body?_setBody_declare "lambda" params _ x) rfl rfl site⟩

/-! ### What a session comes to -/

section

variable (w : Workspace) (es : List Engine) (vs : List Value)

mutual

/-- **A value that arises in a session**: it is plain, was handed out, is part of a function, or comes of a call or of a
node on the way. -/
inductive Arises : Value → Prop
  | plain {v : Value} (h : v.asFunction? = none) : Arises v
  | handed {v : Value} (mem : v ∈ vs) : Arises v
  | captured {f : Closure} {a : Activation} {v : Value} (function : Arises (.function f)) (mem : a ∈ f.captured) (arg : v ∈ a.args) :
      Arises v
  | applied {f : Closure} {v : Value} (function : Arises (.function f)) (mem : v ∈ f.applied) : Arises v
  | called {e : Engine} {f : Closure} {args : List Value} {site : String} {v : Value} (mem : e ∈ es)
      (function : Arises (.function f)) (given : ∀ a ∈ args, Arises a) (value : Calls w f args (e.context w) site (.ok v)) : Arises v
  | evaluated {node : Node} {frame : Frame} {ctx : Context} {v : Value} (evaluated : Evaluated node frame ctx)
      (value : Evaluates w node frame ctx (.ok v)) : Arises v

/-- **A node that is evaluated in a session**, with its frame and context, in a call by one of the engines. -/
inductive Evaluated : Node → Frame → Context → Prop
  | mk {e : Engine} {f : Closure} {args : List Value} {site : String} {body node : Node} {inner frame : Frame}
      {ctx ctx' : Context} (mem : e ∈ es) (function : Arises (.function f)) (given : ∀ a ∈ args, Arises a)
      (enters : Enters w f args (e.context w) site body inner ctx) (visits : Visits w body inner ctx node frame ctx') :
      Evaluated node frame ctx'

end

/-- **An environment, a frame and a context that a session comes to**: the globals of an engine, what a node has to look
names up in while it is evaluated, and what is around these. -/
inductive Reached : Env → Frame → Context → Prop
  | globals {e : Engine} (mem : e ∈ es) : Reached e.globals .root (e.context w)
  | named {node : Node} {frame : Frame} {ctx : Context} {name : String} {env : Env} (evaluated : Evaluated w es vs node frame ctx)
      (late : node.late? = some (name, env)) : Reached env frame ctx
  | around {s s' : ScopeRef} {outer : List ScopeRef} {frame : Frame} {ctx : Context}
      (inside : Reached ⟨s, s' :: outer⟩ frame ctx) : Reached ⟨s', outer⟩ frame ctx

end

section

variable {w : Workspace}

theorem Enters.store {f : Closure} {args : List Value} {ctx ctx' : Context} {site : String} {node : Node} {frame : Frame}
    (h : Enters w f args ctx site node frame ctx') : ctx'.store = ctx.store := by
  induction h with
  | body _ _ pushed => exact Context.store_of_push pushed
  | rest _ _ _ _ _ ih => exact ih

theorem Visits.store {node node' : Node} {frame frame' : Frame} {ctx ctx' : Context}
    (h : Visits w node frame ctx node' frame' ctx') : ctx'.store = ctx.store := by
  induction h with
  | here => rfl
  | child _ _ ih | mention _ _ ih | callee _ _ ih => exact ih
  | invoke _ _ enters _ ih | apply _ _ enters _ ih => exact ih.trans enters.store

variable {es : List Engine} {vs : List Value} {G : World} {Q : Env → Node → Prop} (serves : G.Serves Q w es vs)

include serves

mutual

theorem Arises.sound : ∀ {v : Value}, Arises w es vs v → v.Sound G w
  | _, .plain h => .plain h
  | _, .handed mem => serves.values _ mem
  | _, .captured function mem arg => by
    cases function.sound with
    | plain h => cases h
    | function _ _ _ _ inside _ => exact inside _ mem _ arg
  | _, .applied function mem => by
    cases function.sound with
    | plain h => cases h
    | function _ _ _ _ _ given => exact given _ mem
  | _, .called _ function given ⟨n, value⟩ =>
    ((serves.ok.sound n).2.2 function.sound (fun a ha => (given a ha).sound) (serves.fits_context _)).1 _ value
  | _, .evaluated evaluated value => by
    obtain ⟨L, addressed, fits, store⟩ := evaluated.addressed
    exact serves.ok.evaluates_sound addressed fits (fun s hs => serves.ok.store s (store ▸ hs)) value

theorem Evaluated.addressed : ∀ {node : Node} {frame : Frame} {ctx : Context}, Evaluated w es vs node frame ctx →
    ∃ L, node.Addressed G w Q L ∧ frame.Fits G w L ∧ ctx.store = w.store
  | _, _, _, .mk _ function given enters visits => by
    obtain ⟨L, addressed, fits, hctx⟩ := serves.ok.enters enters function.sound (fun a ha => (given a ha).sound)
      (serves.fits_context _)
    obtain ⟨L', addressed', fits'⟩ := serves.ok.visits visits addressed fits hctx
    exact ⟨L', addressed', fits', visits.store.trans enters.store⟩

end

theorem Reached.placed {env : Env} {frame : Frame} {ctx : Context} (h : Reached w es vs env frame ctx) :
    G.live env ∧ frame.Fits G w (w.layout env.path) ∧ ctx.store = w.store := by
  induction h with
  | globals mem =>
    obtain ⟨-, live, depth⟩ := serves.engines _ mem
    have hlayout := List.length_eq_zero_iff.1 ((serves.ok.depth _ live).trans depth)
    exact ⟨live, ⟨hlayout ▸ Frame.covers_root, fun _ ha => by cases ha⟩, rfl⟩
  | named evaluated late =>
    obtain ⟨L, addressed, fits, store⟩ := evaluated.addressed serves
    obtain ⟨live, layout, -⟩ := addressed.names late
    exact ⟨live, ⟨fits.covers.mono layout, fits.values⟩, store⟩
  | around _ ih =>
    obtain ⟨live, fits, store⟩ := ih
    exact ⟨serves.ok.around _ _ _ live, ⟨fits.covers.mono (w.layout_of_suffix (List.suffix_cons _ _)), fits.values⟩, store⟩

end

/-! ### The law holds in every session -/

theorem History.standard {w : Workspace} {es : List Engine} {vs : List Value} {log : List Event} (past : History w es vs log) :
    Discipline.standard.Holds w :=
  (past.orderly.holds Discipline.lawful_standard (fun _ _ _ s _ => s.heeds_blind) (fun _ => ⟨trivial, trivial⟩)).1

/-- **The beta law.**  After every history, for every body and all values that arise, the law holds wherever the session
comes to; and at every node that is evaluated it holds in an environment that the node was compiled in, for every relation
`Q` that holds of all nodes compiled in the history together with the environments they were compiled in. -/
theorem beta_law {w : Workspace} {es : List Engine} {vs : List Value} {log : List Event} (past : History w es vs log)
    {params : List String} {values : List Value} (full : params.length = values.length)
    (arise : ∀ v ∈ values, Arises w es vs v) (body : Expr) :
    (∀ env frame ctx, Reached w es vs env frame ctx → BetaLaw w env frame ctx params body values) ∧
    ∀ Q : Env → Node → Prop, (∀ ev ∈ log, ev.Traced Q) → ∀ node frame ctx, Evaluated w es vs node frame ctx →
      ∃ env, Q env node ∧ BetaLaw w env frame ctx params body values := by
  constructor
  · intro env frame ctx reached
    obtain ⟨G, serves⟩ := past.serves past.traced_true
    obtain ⟨live, fits, store⟩ := reached.placed serves
    exact serves.ok.beta past.standard live fits store full (fun v hv => (arise v hv).sound serves) body
  · intro Q traced node frame ctx evaluated
    obtain ⟨G, serves⟩ := past.serves traced
    obtain ⟨L, ⟨⟨env, live, layout, hq⟩, -, -⟩, fits, store⟩ := evaluated.addressed serves
    exact ⟨env, hq, serves.ok.beta past.standard live ⟨fits.covers.mono layout, fits.values⟩ store full
      (fun v hv => (arise v hv).sound serves) body⟩

/-- Inside `f` as it is called with three, a function that calls its own argument and reads `a`: it is given `f` itself. -/
theorem beta_law_inside_function :
    let e := (Engine.new .standard {} {}).1
    let body : Expr := ⟨.call "h" [.ident "y"], [⟨.add, .ident "a"⟩]⟩
    ∃ w f vs log env ctx, History w [e] (.function f :: vs) log ∧
      Reached w [e] (.function f :: vs) env [⟨1, [.int 3]⟩] ctx ∧ Accepts w env (.lambda ["h", "y"] body) ∧
      BetaLaw w env [⟨1, [.int 3]⟩] ctx ["h", "y"] body [.function f, .int 10] := by
  intro e body
  have script : ((e.compiled? "define(g(x), x * 2); define(f(a), g(a)); f" (Engine.new .standard {} {}).2).any fun (main, w) =>
      (e.called? main w).any fun v => v.asFunction?.any fun f => (w.body? f.definition).any fun node => node.late?.any fun (_, env) =>
        f.definition.params.length == 1 && f.definition.depth == 1 && f.captured.isEmpty && f.applied.isEmpty &&
        ((e.context w).push f.definition.name "f(3)").toOption.isSome &&
        ((compile .standard 20 (Expr.lambda ["h", "y"] body) env).run w).any (·.1.toOption.isSome)) = true := by
    decide +kernel
  simp only [Option.any_eq_true, Prod.exists, Bool.and_eq_true, List.isEmpty_iff, beq_iff_eq, Option.isSome_iff_exists] at script
  obtain ⟨main, w, compiled, v, called, f, function, node, known, name, env, late, ⟨⟨⟨⟨⟨arity, depth⟩, captured⟩, applied⟩, ctx, pushed⟩,
    r, w', made, x, accepted⟩⟩ := script
  have ends : ∀ {ε α : Type} {r : Except ε α} {a : α}, r.toOption = some a → r = .ok a := by
    rintro ε α (_ | _) a h
    · cases h
    · cases h
      rfl
  obtain ⟨statements, read⟩ := Engine.parse_of_compile (Engine.compile_of_compiled? compiled)
  have past := ((History.engine .start {}).compile List.mem_cons_self read (Engine.compile_of_compiled? compiled)).call
    List.mem_cons_self List.mem_cons_self (fun _ h => by cases h) (Engine.callAt_of_called? called)
  obtain rfl : v = .function f := by
    cases v with
    | function f' => cases function; rfl
    | _ => cases function
  have arises : Arises w [e] [.function f, .function main] (.function f) := .handed List.mem_cons_self
  have frame : Frame.enter f.captured f.definition.depth ((f.applied ++ [Value.int 3]).take f.definition.params.length) =
      [⟨1, [.int 3]⟩] := by
    rw [captured, applied, depth, arity]
    rfl
  have enters : Enters w f [.int 3] (e.context w) "f(3)" node [⟨1, [.int 3]⟩] ctx := by
    rw [← frame]
    exact .body (by rw [applied, arity]; exact Nat.le_refl _) known (ends pushed)
  have reached : Reached w [e] [.function f, .function main] env [⟨1, [.int 3]⟩] ctx :=
    .named (.mk List.mem_cons_self arises (List.forall_mem_singleton.2 (.plain rfl)) enters (.here _ _ _)) late
  refine ⟨w, f, _, _, env, ctx, past, reached, ?_, (beta_law past rfl ?_ body).1 _ _ _ reached⟩
  · rw [ends accepted] at made
    exact ⟨x, w', 20, made⟩
  · exact List.forall_mem_cons.2 ⟨arises, List.forall_mem_singleton.2 (.plain rfl)⟩

end ChainCalc
