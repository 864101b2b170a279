import ChainCalc.Proofs.Compile.Outcome
import ChainCalc.Proofs.Compile.Forms
/-!
# Successful compilations — one rule for each thing a compiler can do

`Step registry make` relates an expression to its node when the expressions inside it are related by `make`; it has a
rule for each form of the language and says everything that a successful step does to the workspace.
`compile_gives_iff` is the equivalence with the compiler.  `Makes registry` is compilation in any number of nested steps:
it is what `Step` makes of itself (`makes_iff`).
-/
namespace ChainCalc

open CompileM

abbrev Making := Workspace → Env → Expr → Node → Workspace → Prop

def isSpecial (name : String) : Bool := name == "define" || name == "lambda" || name == "block"

section

variable (registry : Registry) (make : Making)

abbrev MakesAll (env : Env) : Workspace → List Expr → List Node → Workspace → Prop :=
  InOrder (fun w e node w' => make w env e node w')

abbrev MakesGroups (env : Env) : Workspace → List (String × List Expr) → List (String × List Node) → Workspace → Prop :=
  InOrder (fun w g h w' => h.1 = g.1 ∧ MakesAll make env w g.2 h.2 w')

def Builds (w : Workspace) (env : Env) (candidate : Expr) (node : Node) (w' : Workspace) : Prop :=
  ∃ entry captures groups, registry.find? candidate = some (entry, captures) ∧
    MakesGroups make env w captures.entries groups w' ∧
    entry.factory ⟨entry.name, .ofList groups⟩ entry.name candidate.text = .ok node

inductive Asks (w : Workspace) (env : Env) : Expr → Expr → Prop
  | name {x : String} (unbound : w.lookup env x = none) (plain : Placeholder.classify x = none) :
      Asks w env (.ident x) (.ident x)
  | call {f : String} {args : List Expr} (plain : isSpecial f = false) (unbound : w.lookup env f = none) :
      Asks w env (.call f args) (.call f args)
  | unary (op : Operator) (x : Operand) : Asks w env (.ofOperand (.unary op x)) (.ofOperand (.unary op x))
  | chain {e : Expr} (long : e.isChain = true) (found : (registry.find? e).isSome = true) : Asks w env e e
  | regrouped {e grouped : Expr} (long : e.isChain = true) (missed : registry.find? e = none)
      (split : e.regroup? = some grouped) : Asks w env e grouped

inductive MakesDefine (env : Env) : Workspace → Expr → String → Option Binding → Workspace → Prop
  | value {w w₁ : Workspace} {e target value : Expr} {x : String} {node : Node} (form : e.Defines target value)
      (named : target.asIdent? = some x) (made : make w env value node w₁) :
      MakesDefine env w e x (w₁.define env x (.value node)).1 (w₁.define env x (.value node)).2
  | function {w w₁ w₂ w₃ w₄ : Workspace} {scope : Env} {d : Definition} {previous : Option Binding}
      {e target value : Expr} {f : String} {args : List Expr} {params : List String} {body : Node}
      (form : e.Defines target value) (called : target.asCall? = some (f, args))
      (named : args.mapM Expr.asIdent? = some params) (entered : w.functionEnv env params = (scope, w₁))
      (declared : w₁.declare f params (env.depth + 1) = (d, w₂)) (bound : w₂.define env f (.function d) = (previous, w₃))
      (made : make w₃ scope value body w₄) : MakesDefine env w e f previous (w₄.setBody d body)

inductive MakesStatements (env : Env) : Workspace → List Expr → Bool → List Node → Bool → Workspace → Prop
  | nil (w : Workspace) (ends : Bool) : MakesStatements env w [] ends [] ends w
  | define {w w₁ w₂ : Workspace} {s : Expr} {rest : List Expr} {name : String} {previous : Option Binding}
      {nodes : List Node} {ends ends' : Bool} (is : s.isDefine = true) (head : MakesDefine make env w s name previous w₁)
      (tail : MakesStatements env w₁ rest false nodes ends' w₂) :
      MakesStatements env w (s :: rest) ends nodes ends' w₂
  | expr {w w₁ w₂ : Workspace} {s : Expr} {rest : List Expr} {node : Node} {nodes : List Node} {ends ends' : Bool}
      (is : s.isDefine = false) (head : make w env s node w₁)
      (tail : MakesStatements env w₁ rest true nodes ends' w₂) :
      MakesStatements env w (s :: rest) ends (node :: nodes) ends' w₂

/-- **One step of the compiler that succeeds**, with `make` for the expressions inside. -/
inductive Step : Making
  | literal {w : Workspace} {env : Env} {e : Expr} {value : Literal} (form : e.bare = .lit value) :
      Step w env e (.constant value.value) w
  | variableName {w : Workspace} {env : Env} {e : Expr} {x : String} {node : Node} (form : e.bare = .ident x)
      (bound : w.lookup env x = some (.value node)) : Step w env e node w
  | parameterName {w : Workspace} {env : Env} {e : Expr} {x : String} {depth index : Nat} (form : e.bare = .ident x)
      (bound : w.lookup env x = some (.param depth index)) : Step w env e (.param x depth index) w
  | functionName {w : Workspace} {env : Env} {e : Expr} {x : String} {d : Definition} (form : e.bare = .ident x)
      (bound : w.lookup env x = some (.function d)) : Step w env e (.functionRef x env) w
  | pattern {w w' : Workspace} {env : Env} {e candidate : Expr} {node : Node} (asks : Asks registry w env e.bare candidate)
      (built : Builds registry make w env candidate node w') : Step w env e node w'
  | lambda {w w₁ w₂ w₃ : Workspace} {env scope : Env} {e body : Expr} {args : List Expr} {params : List String}
      {node : Node} {d : Definition} (form : e.bare = .call "lambda" args)
      (last : (args.map Expr.bare).getLast? = some body)
      (named : (args.map Expr.bare).dropLast.mapM Expr.asIdent? = some params)
      (entered : w.functionEnv env params = (scope, w₁)) (made : make w₁ scope body node w₂)
      (declared : w₂.declare "lambda" params (env.depth + 1) = (d, w₃)) :
      Step w env e (.lambda d (some node)) (w₃.setBody d node)
  | block {w w₁ w₂ : Workspace} {env scope : Env} {e : Expr} {args : List Expr} {nodes : List Node}
      (form : e.bare = .call "block" args) (entered : w.childEnv env = (scope, w₁))
      (made : MakesStatements make scope w₁ (args.map Expr.bare) false nodes true w₂) :
      Step w env e (.sequence e.bare.text nodes) w₂
  | callFunction {w w' : Workspace} {env : Env} {e : Expr} {f : String} {args : List Expr} {d : Definition}
      {nodes : List Node} (form : e.bare = .call f args) (plain : isSpecial f = false)
      (bound : w.lookup env f = some (.function d)) (made : MakesAll make env w args nodes w') :
      Step w env e (.invoke f e.bare.text env nodes) w'
  | callVariable {w w' : Workspace} {env : Env} {e : Expr} {f : String} {args : List Expr} {callee : Node}
      {nodes : List Node} (form : e.bare = .call f args) (plain : isSpecial f = false)
      (bound : w.lookup env f = some (.value callee)) (made : MakesAll make env w args nodes w') :
      Step w env e (.apply e.bare.text callee nodes) w'
  | callParameter {w w' : Workspace} {env : Env} {e : Expr} {f : String} {args : List Expr} {depth index : Nat}
      {nodes : List Node} (form : e.bare = .call f args) (plain : isSpecial f = false)
      (bound : w.lookup env f = some (.param depth index)) (made : MakesAll make env w args nodes w') :
      Step w env e (.apply e.bare.text (.param f depth index) nodes) w'

end

theorem makesGroups_nil {make : Making} {env : Env} {w w' : Workspace} {made : List (String × List Node)} :
    MakesGroups make env w [] made w' ↔ made = [] ∧ w' = w := by
  constructor
  · intro h
    cases h
    exact ⟨rfl, rfl⟩
  · rintro ⟨rfl, rfl⟩
    exact .nil _

theorem makesGroups_one {make : Making} {env : Env} {w w' : Workspace} {name : String} {e : Expr}
    {groups : List (String × List Expr)} {made : List (String × List Node)} :
    MakesGroups make env w ((name, [e]) :: groups) made w' ↔
      ∃ node w₁ made', make w env e node w₁ ∧ MakesGroups make env w₁ groups made' w' ∧ made = (name, [node]) :: made' := by
  constructor
  · rintro (_ | ⟨head, tail⟩)
    rename_i g made'
    obtain ⟨g, nodes⟩ := g
    obtain ⟨rfl, hall⟩ := head
    cases hall with
    | cons hnode hnil =>
      cases hnil
      exact ⟨_, _, made', hnode, tail, rfl⟩
  · rintro ⟨node, w₁, made', hnode, tail, rfl⟩
    exact .cons ⟨rfl, .cons hnode (.nil _)⟩ tail

/-! ### The compiler takes these steps -/

section

variable (registry : Registry) (sub : Expr → Env → CompileM Node)

abbrev Making.of : Making := fun w env e node w' => (sub e env).Gives w node w'

theorem compileAll_gives (es : List Expr) (env : Env) (w : Workspace) (nodes : List Node) (w' : Workspace) :
    (compileAll sub es env).Gives w nodes w' ↔ MakesAll (.of sub) env w es nodes w' :=
  gives_mapM _ es w nodes w'

theorem compileCaptures_gives (c : Captures) (env : Env) (w : Workspace) (t : Table (List Node)) (w' : Workspace) :
    (compileCaptures sub c env).Gives w t w' ↔
      ∃ groups, MakesGroups (.of sub) env w c.entries groups w' ∧ t = .ofList groups := by
  unfold compileCaptures
  simp only [gives_bind, gives_pure, gives_mapM, compileAll_gives]
  constructor
  · rintro ⟨groups, w₁, h, rfl, rfl⟩
    refine ⟨groups, h.imp ?_, rfl⟩
    rintro w ⟨name, es⟩ b w' ⟨nodes, w₁, hn, rfl, rfl⟩
    exact ⟨rfl, hn⟩
  · rintro ⟨groups, h, rfl⟩
    refine ⟨groups, w', h.imp ?_, rfl, rfl⟩
    rintro w ⟨name, es⟩ ⟨name', nodes⟩ w' ⟨hname, hn⟩
    cases hname
    exact ⟨nodes, w', hn, rfl, rfl⟩

theorem fromRegistry_gives_some (c : Expr) (env : Env) (w : Workspace) (node : Node) (w' : Workspace) :
    (fromRegistry registry sub c env).Gives w (some node) w' ↔ Builds registry (.of sub) w env c node w' := by
  unfold fromRegistry Builds
  cases hf : registry.find? c with
  | none => simp
  | some p =>
    obtain ⟨entry, captures⟩ := p
    simp only [gives_bind, gives_pure, gives_settled, compileCaptures_gives, Option.some.injEq, Prod.mk.injEq]
    constructor
    · rintro ⟨t, w₁, ⟨groups, hg, rfl⟩, node', w₂, ⟨hnode, rfl⟩, rfl, rfl⟩
      exact ⟨entry, captures, groups, ⟨rfl, rfl⟩, hg, hnode⟩
    · rintro ⟨entry', captures', groups, ⟨rfl, rfl⟩, hg, hnode⟩
      exact ⟨_, w', ⟨groups, hg, rfl⟩, node, w', ⟨hnode, rfl⟩, rfl, rfl⟩

theorem fromRegistry_gives_none (c : Expr) (env : Env) (w : Workspace) (w' : Workspace) :
    (fromRegistry registry sub c env).Gives w none w' ↔ registry.find? c = none ∧ w' = w := by
  unfold fromRegistry
  cases hf : registry.find? c with
  | none => simp
  | some p =>
    simp only [gives_bind, gives_pure, reduceCtorEq, false_and]
    constructor
    · rintro ⟨_, _, _, _, _, _, h⟩
      exact h.elim
    · rintro h
      exact h.elim

theorem fromRegistryOr_gives (c : Expr) (env : Env) (error : CompileError) (w : Workspace) (node : Node) (w' : Workspace) :
    (fromRegistryOr registry sub c env error).Gives w node w' ↔ Builds registry (.of sub) w env c node w' := by
  unfold fromRegistryOr
  rw [gives_bind]
  constructor
  · rintro ⟨r, w₁, hr, h⟩
    cases r with
    | none => exact absurd h (gives_fail _ _ _ _)
    | some node' =>
      rw [gives_pure] at h
      obtain ⟨rfl, rfl⟩ := h
      exact (fromRegistry_gives_some registry sub c env w _ _).1 hr
  · intro h
    exact ⟨some node, w', (fromRegistry_gives_some registry sub c env w _ _).2 h, (gives_pure _ _ _ _).2 ⟨rfl, rfl⟩⟩

theorem formCapture_gives (c : Captures) (placeholder : String) (w : Workspace) (e : Expr) (w' : Workspace) :
    (formCapture c placeholder).Gives w e w' ↔ (c.of placeholder).head? = some e ∧ w' = w := by
  unfold formCapture
  cases (c.of placeholder).head? with
  | none => simp
  | some e' => simp [eq_comm]

theorem paramNames_gives (problem : FormProblem) (whole : Expr) (args : List Expr) (w : Workspace) (names : List String)
    (w' : Workspace) : (paramNames problem whole args).Gives w names w' ↔ args.mapM Expr.asIdent? = some names ∧ w' = w := by
  unfold paramNames
  cases args.mapM Expr.asIdent? with
  | none => simp
  | some names' => simp [eq_comm]

theorem asIdent?_eq_none_of_asCall? {e : Expr} {p : String × List Expr} (h : e.asCall? = some p) : e.asIdent? = none := by
  obtain ⟨f, args⟩ := p
  unfold Expr.asIdent?
  rw [Expr.asCall?_eq_some.1 h]
  rfl

theorem compileDefine_gives (e : Expr) (env : Env) (w : Workspace) (name : String) (previous : Option Binding)
    (w' : Workspace) :
    (compileDefine sub e env).Gives w (name, previous) w' ↔ MakesDefine (.of sub) env w e name previous w' := by
  unfold compileDefine compileBody
  constructor
  · intro h
    cases hc : defineForm.captures? e with
    | none => rw [hc] at h; exact absurd h (gives_fail _ _ _ _)
    | some captures =>
      simp only [hc, gives_bind, formCapture_gives] at h
      obtain ⟨target, _, ⟨ht, rfl⟩, value, _, ⟨hv, rfl⟩, h⟩ := h
      have form : e.Defines target value := ⟨captures, hc, ht, hv⟩
      cases hi : target.asIdent? with
      | some x =>
        simp only [hi, gives_bind, gives_update, gives_pure, Prod.mk.injEq] at h
        obtain ⟨node, w₁, hn, p, w₂, hp, ⟨rfl, rfl⟩, rfl⟩ := h
        rw [show previous = (w₁.define env name (.value node)).1 by rw [hp],
          show w' = (w₁.define env name (.value node)).2 by rw [hp]]
        exact .value form hi hn
      | none =>
        cases hcall : target.asCall? with
        | none => simp only [hi, hcall] at h; exact absurd h (gives_fail _ _ _ _)
        | some p =>
          obtain ⟨f, args⟩ := p
          simp only [hi, hcall, gives_bind, gives_update, gives_pure, gives_onError, paramNames_gives, Prod.mk.injEq] at h
          obtain ⟨params, _, ⟨hparams, rfl⟩, scope, w₁, hs, d, w₂, hd, p, w₃, hp, _, w₄, ⟨body, w₅, hb, _, _, ⟨-, rfl⟩,
            rfl, rfl⟩, ⟨rfl, rfl⟩, rfl⟩ := h
          have hdepth : scope.depth = env.depth + 1 := (congrArg (fun p => p.1.depth) hs).symm
          exact .function form hcall hparams hs (by rw [← hdepth]; exact hd) hp hb
  · intro h
    cases h with
    | value form named made =>
      obtain ⟨c, hc, ht, hv⟩ := form
      simp only [hc, gives_bind, formCapture_gives]
      refine ⟨_, _, ⟨ht, rfl⟩, _, _, ⟨hv, rfl⟩, ?_⟩
      simp only [named, gives_bind, gives_update, gives_pure]
      exact ⟨_, _, made, _, _, rfl, rfl, rfl⟩
    | function form called named entered declared bound made =>
      obtain ⟨c, hc, ht, hv⟩ := form
      have hdepth := congrArg (fun p => p.1.depth) entered
      simp only [hc, gives_bind, formCapture_gives]
      refine ⟨_, _, ⟨ht, rfl⟩, _, _, ⟨hv, rfl⟩, ?_⟩
      simp only [asIdent?_eq_none_of_asCall? called, called, gives_bind, gives_update, gives_pure, gives_onError,
        paramNames_gives]
      refine ⟨_, _, ⟨named, rfl⟩, _, _, entered, _, _, ?_, _, _, bound, _, _, ⟨_, _, made, (), _, rfl, rfl, rfl⟩, rfl, rfl⟩
      rw [← hdepth]
      exact declared

theorem compileStatements_gives (env : Env) : ∀ (ss : List Expr) (ends : Bool) (w : Workspace) (nodes : List Node)
    (ends' : Bool) (w' : Workspace), (compileStatements sub env ss ends).Gives w (nodes, ends') w' ↔
      MakesStatements (.of sub) env w ss ends nodes ends' w'
  | [], ends, w, nodes, ends', w' => by
    rw [compileStatements, gives_pure, Prod.mk.injEq]
    constructor
    · rintro ⟨⟨rfl, rfl⟩, rfl⟩
      exact .nil _ _
    · rintro ⟨⟩
      exact ⟨⟨rfl, rfl⟩, rfl⟩
  | s :: rest, ends, w, nodes, ends', w' => by
    unfold compileStatements compileStatement
    cases hs : s.isDefine with
    | true =>
      simp only [gives_bind, gives_pure, if_true]
      constructor
      · rintro ⟨_, w₁, ⟨⟨name, previous⟩, _, hd, rfl, rfl⟩, h⟩
        exact .define hs ((compileDefine_gives sub s env _ _ _ _).1 hd) ((compileStatements_gives env rest _ _ _ _ _).1 h)
      · intro h
        cases h with
        | define _ head tail =>
          exact ⟨_, _, ⟨_, _, (compileDefine_gives sub s env _ _ _ _).2 head, rfl, rfl⟩,
            (compileStatements_gives env rest _ _ _ _ _).2 tail⟩
        | expr is _ _ => rw [hs] at is; cases is
    | false =>
      simp only [gives_bind, gives_pure, Bool.false_eq_true, if_false]
      constructor
      · rintro ⟨_, w₁, ⟨node, _, hn, rfl, rfl⟩, h⟩
        simp only [gives_bind, gives_pure, Prod.mk.injEq] at h
        obtain ⟨⟨nodes', e'⟩, w₂, h, ⟨rfl, rfl⟩, rfl⟩ := h
        exact .expr hs hn ((compileStatements_gives env rest _ _ _ _ _).1 h)
      · intro h
        cases h with
        | define is _ _ => rw [hs] at is; cases is
        | expr _ head tail =>
          refine ⟨_, _, ⟨_, _, head, rfl, rfl⟩, ?_⟩
          simp only [gives_bind, gives_pure]
          exact ⟨(_, _), _, (compileStatements_gives env rest _ _ _ _ _).2 tail, rfl, rfl⟩

theorem formCaptures_eq (form name : String) (args : List Expr) (hform : Placeholder.classify form = none)
    (kind : (Expr.ident name).ellipsis? = some ⟨name, .ellipsis⟩) :
    ∃ c, formCaptures (.call form [.ident name]) (.call form args) = pure c ∧ c.of name = args.map Expr.bare := by
  obtain ⟨c, hc, hof⟩ := captures_manyForm args hform kind
  refine ⟨c, ?_, hof⟩
  unfold formCaptures
  rw [hc]

theorem compileLambda_gives (args : List Expr) (e : Expr) (env : Env) (w : Workspace) (node : Node) (w' : Workspace)
    (form : e.bare = .call "lambda" args) :
    (compileLambda sub (args.map Expr.bare) e.bare env).Gives w node w' → Step registry (.of sub) w env e node w' := by
  intro h
  unfold compileLambda at h
  cases hl : (args.map Expr.bare).getLast? with
  | none => rw [hl] at h; exact absurd h (gives_fail _ _ _ _)
  | some body =>
    simp only [hl, gives_bind, gives_update, gives_pure, paramNames_gives] at h
    obtain ⟨params, _, ⟨hp, rfl⟩, scope, w₁, hs, body', w₂, hb, d, w₃, hd, _, _, ⟨-, rfl⟩, rfl, rfl⟩ := h
    have hdepth := congrArg (fun p => p.1.depth) hs
    exact .lambda form hl hp hs hb (by rw [show env.depth + 1 = scope.depth from hdepth]; exact hd)

theorem compileName_gives (x : String) (e : Expr) (env : Env) (w : Workspace) (node : Node) (w' : Workspace)
    (form : e.bare = .ident x) :
    (compileName registry sub x e.bare env).Gives w node w' → Step registry (.of sub) w env e node w' := by
  intro h
  simp only [compileName, gives_bind, gives_view] at h
  obtain ⟨b, _, ⟨hb, rfl⟩, h⟩ := h
  cases b with
  | some b =>
    cases b with
    | value node' =>
      obtain ⟨rfl, rfl⟩ := (gives_pure _ _ _ _).1 h
      exact .variableName form hb.symm
    | param depth index =>
      obtain ⟨rfl, rfl⟩ := (gives_pure _ _ _ _).1 h
      exact .parameterName form hb.symm
    | function d =>
      obtain ⟨rfl, rfl⟩ := (gives_pure _ _ _ _).1 h
      exact .functionName form hb.symm
  | none =>
    cases hc : Placeholder.classify x with
    | some p =>
      rw [hc] at h
      exact absurd h (gives_fail _ _ _ _)
    | none =>
      rw [hc] at h
      exact .pattern (form ▸ .name hb.symm hc) ((fromRegistryOr_gives registry sub _ env _ _ _ _).1 h)

theorem compileBoundCall_gives (f : String) (args : List Expr) (e : Expr) (env : Env) (w : Workspace) (node : Node)
    (w' : Workspace) (form : e.bare = .call f args) (plain : isSpecial f = false) :
    (compileBoundCall registry sub f args e.bare env).Gives w node w' → Step registry (.of sub) w env e node w' := by
  intro h
  simp only [compileBoundCall, gives_bind, gives_view] at h
  obtain ⟨b, _, ⟨hb, rfl⟩, h⟩ := h
  cases b with
  | some b =>
    cases b with
    | function d =>
      simp only [gives_bind, gives_pure, compileAll_gives] at h
      obtain ⟨nodes, _, hn, rfl, rfl⟩ := h
      exact .callFunction form plain hb.symm hn
    | value callee =>
      simp only [gives_bind, gives_pure, compileAll_gives] at h
      obtain ⟨nodes, _, hn, rfl, rfl⟩ := h
      exact .callVariable form plain hb.symm hn
    | param depth index =>
      simp only [gives_bind, gives_pure, compileAll_gives] at h
      obtain ⟨nodes, _, hn, rfl, rfl⟩ := h
      exact .callParameter form plain hb.symm hn
  | none =>
    exact .pattern (form ▸ .call plain hb.symm) ((fromRegistryOr_gives registry sub _ env _ _ _ _).1 h)

theorem compileBlock_gives (args : List Expr) (e : Expr) (env : Env) (w : Workspace) (node : Node) (w' : Workspace)
    (form : e.bare = .call "block" args) :
    (compileBlock sub (args.map Expr.bare) e.bare env).Gives w node w' → Step registry (.of sub) w env e node w' := by
  intro h
  simp only [compileBlock, gives_bind, gives_update] at h
  obtain ⟨scope, w₁, hs, ⟨nodes, ends⟩, w₂, hn, h⟩ := h
  cases ends with
  | false => exact absurd h (gives_fail _ _ _ _)
  | true =>
    obtain ⟨rfl, rfl⟩ := (gives_pure _ _ _ _).1 h
    exact .block form hs ((compileStatements_gives sub scope _ _ _ _ _ _).1 hn)

theorem compileCall_lambda (args : List Expr) (env : Env) :
    compileCall registry sub "lambda" args (.call "lambda" args) env =
      compileLambda sub (args.map Expr.bare) (.call "lambda" args) env := by
  obtain ⟨c, hc, hof⟩ := formCaptures_eq "lambda" "__params" args (by decide) (by decide)
  show formCaptures (.call "lambda" [.ident "__params"]) (.call "lambda" args) >>= _ = _
  rw [hc, pure_bind, hof]

theorem compileCall_block (args : List Expr) (env : Env) :
    compileCall registry sub "block" args (.call "block" args) env =
      compileBlock sub (args.map Expr.bare) (.call "block" args) env := by
  obtain ⟨c, hc, hof⟩ := formCaptures_eq "block" "__statements" args (by decide) (by decide)
  show formCaptures (.call "block" [.ident "__statements"]) (.call "block" args) >>= _ = _
  rw [hc, pure_bind, hof]

theorem compileCall_plain {f : String} (plain : isSpecial f = false) (args : List Expr) (e : Expr) (env : Env) :
    compileCall registry sub f args e env = compileBoundCall registry sub f args e env := by
  unfold isSpecial at plain
  simp only [Bool.or_eq_false_iff] at plain
  unfold compileCall
  rw [plain.1.1, plain.1.2, plain.2]
  rfl

theorem compileCall_gives (f : String) (args : List Expr) (e : Expr) (env : Env) (w : Workspace) (node : Node)
    (w' : Workspace) (form : e.bare = .call f args) :
    (compileCall registry sub f args e.bare env).Gives w node w' → Step registry (.of sub) w env e node w' := by
  intro h
  by_cases hd : f = "define"
  · subst hd
    exact absurd h (gives_fail _ _ _ _)
  by_cases hl : f = "lambda"
  · subst hl
    rw [form, compileCall_lambda, ← form] at h
    exact compileLambda_gives registry sub args e env w node w' form h
  by_cases hb : f = "block"
  · subst hb
    rw [form, compileCall_block, ← form] at h
    exact compileBlock_gives registry sub args e env w node w' form h
  · have plain : isSpecial f = false := by simp [isSpecial, hd, hl, hb]
    rw [compileCall_plain registry sub plain] at h
    exact compileBoundCall_gives registry sub f args e env w node w' form plain h

theorem compileChain_gives (e : Expr) (env : Env) (w : Workspace) (node : Node) (w' : Workspace)
    (long : e.bare.isChain = true) :
    (compileChain registry sub e.bare env).Gives w node w' → Step registry (.of sub) w env e node w' := by
  intro h
  unfold compileChain at h
  rw [gives_bind] at h
  obtain ⟨r, w₁, hr, h⟩ := h
  cases r with
  | some node' =>
    obtain ⟨rfl, rfl⟩ := (gives_pure _ _ _ _).1 h
    have built := (fromRegistry_gives_some registry sub _ env _ _ _).1 hr
    have found : (registry.find? e.bare).isSome = true := by
      obtain ⟨_, _, _, hf, -⟩ := built
      rw [hf]
      rfl
    exact .pattern (.chain long found) built
  | none =>
    obtain ⟨missed, rfl⟩ := (fromRegistry_gives_none registry sub _ env _ _).1 hr
    cases hg : e.bare.regroup? with
    | none => rw [hg] at h; exact absurd h (gives_fail _ _ _ _)
    | some grouped =>
      rw [hg] at h
      exact .pattern (.regrouped long missed hg) ((fromRegistryOr_gives registry sub _ env _ _ _ _).1 h)

theorem Expr.bare_eq_ofOperand {e : Expr} (short : e.bare.isChain = false) : e.bare = .ofOperand e.bare.first := by
  cases he : e.bare with
  | mk first rest =>
    rw [he] at short
    have hrest : rest = [] := by simpa [Expr.isChain] using short
    rw [hrest]
    rfl

theorem step_of_compileStep {e : Expr} {env : Env} {w : Workspace} {node : Node} {w' : Workspace}
    (h : (compileStep registry sub e env).Gives w node w') : Step registry (.of sub) w env e node w' := by
  unfold compileStep at h
  cases long : e.bare.isChain with
  | true =>
    rw [if_pos long] at h
    exact compileChain_gives registry sub e env w node w' long h
  | false =>
    rw [if_neg (by rw [long]; exact Bool.false_ne_true)] at h
    have hx := Expr.bare_eq_ofOperand long
    generalize e.bare.first = x at h hx
    cases x with
    | lit value =>
      obtain ⟨rfl, rfl⟩ := (gives_pure _ _ _ _).1 h
      exact .literal hx
    | ident x => exact compileName_gives registry sub x e env w node w' hx h
    | call f args => exact compileCall_gives registry sub f args e env w node w' hx h
    | paren inner => exact absurd hx (e.bare_ne_paren inner)
    | unary op y =>
      have built := (fromRegistryOr_gives registry sub _ env _ _ _ _).1 h
      have asks : Asks registry w env e.bare e.bare := by
        rw [hx]
        exact .unary op y
      exact .pattern asks built

theorem compileStep_of_short {e : Expr} {x : Operand} (hx : e.bare = .ofOperand x) (env : Env) :
    compileStep registry sub e env = compileOperand registry sub x (.ofOperand x) env := by
  unfold compileStep
  rw [hx]
  rfl

theorem compileStep_of_asks {e c : Expr} {env : Env} {w w' : Workspace} {node : Node} (asks : Asks registry w env e.bare c)
    (built : Builds registry (.of sub) w env c node w') : (compileStep registry sub e env).Gives w node w' := by
  generalize he : e.bare = e' at asks
  cases asks with
  | name unbound plain =>
    rw [compileStep_of_short registry sub he, compileOperand, compileName, gives_bind]
    refine ⟨none, w, (gives_view _ _ _ _).2 ⟨unbound.symm, rfl⟩, ?_⟩
    simp only [plain, Option.isSome_none, Bool.false_eq_true, if_false]
    exact (fromRegistryOr_gives registry sub _ env _ _ _ _).2 built
  | call plain unbound =>
    rw [compileStep_of_short registry sub he, compileOperand, compileCall_plain registry sub plain, compileBoundCall,
      gives_bind]
    exact ⟨none, w, (gives_view _ _ _ _).2 ⟨unbound.symm, rfl⟩, (fromRegistryOr_gives registry sub _ env _ _ _ _).2 built⟩
  | unary op x =>
    rw [compileStep_of_short registry sub he, compileOperand]
    exact (fromRegistryOr_gives registry sub _ env _ _ _ _).2 built
  | chain long found =>
    unfold compileStep
    rw [he, if_pos long, compileChain, gives_bind]
    exact ⟨some node, w', (fromRegistry_gives_some registry sub _ env _ _ _).2 built, (gives_pure _ _ _ _).2 ⟨rfl, rfl⟩⟩
  | regrouped long missed split =>
    unfold compileStep
    rw [he, if_pos long, compileChain, gives_bind]
    refine ⟨none, w, (fromRegistry_gives_none registry sub _ env _ _).2 ⟨missed, rfl⟩, ?_⟩
    simp only [split]
    exact (fromRegistryOr_gives registry sub _ env _ _ _ _).2 built

theorem compileStep_of_step {e : Expr} {env : Env} {w : Workspace} {node : Node} {w' : Workspace}
    (h : Step registry (.of sub) w env e node w') : (compileStep registry sub e env).Gives w node w' := by
  cases h with
  | literal form =>
    rw [compileStep_of_short registry sub form]
    exact (gives_pure _ _ _ _).2 ⟨rfl, rfl⟩
  | variableName form bound =>
    rw [compileStep_of_short registry sub form, compileOperand, compileName, gives_bind]
    exact ⟨_, w, (gives_view _ _ _ _).2 ⟨bound.symm, rfl⟩, (gives_pure _ _ _ _).2 ⟨rfl, rfl⟩⟩
  | parameterName form bound =>
    rw [compileStep_of_short registry sub form, compileOperand, compileName, gives_bind]
    exact ⟨_, w, (gives_view _ _ _ _).2 ⟨bound.symm, rfl⟩, (gives_pure _ _ _ _).2 ⟨rfl, rfl⟩⟩
  | functionName form bound =>
    rw [compileStep_of_short registry sub form, compileOperand, compileName, gives_bind]
    exact ⟨_, w, (gives_view _ _ _ _).2 ⟨bound.symm, rfl⟩, (gives_pure _ _ _ _).2 ⟨rfl, rfl⟩⟩
  | pattern asks built => exact compileStep_of_asks registry sub asks built
  | lambda form last named entered made declared =>
    rw [compileStep_of_short registry sub form]
    show (compileCall registry sub "lambda" _ (.call "lambda" _) env).Gives _ _ _
    rw [compileCall_lambda, compileLambda, last]
    simp only [gives_bind, gives_update, gives_pure, paramNames_gives]
    refine ⟨_, _, ⟨named, rfl⟩, _, _, entered, _, _, made, _, _, ?_, (), _, rfl, rfl, rfl⟩
    rw [show (_ : Env).depth = env.depth + 1 from (congrArg (fun p => p.1.depth) entered).symm]
    exact declared
  | block form entered made =>
    rw [form, compileStep_of_short registry sub form]
    show (compileCall registry sub "block" _ (.call "block" _) env).Gives _ _ _
    rw [compileCall_block, compileBlock, gives_bind]
    refine ⟨_, _, (gives_update _ _ _ _).2 entered, ?_⟩
    rw [gives_bind]
    exact ⟨(_, true), _, (compileStatements_gives sub _ _ _ _ _ _ _).2 made, (gives_pure _ _ _ _).2 ⟨rfl, rfl⟩⟩
  | callFunction form plain bound made =>
    rw [form, compileStep_of_short registry sub form, compileOperand, compileCall_plain registry sub plain, compileBoundCall,
      gives_bind]
    refine ⟨_, w, (gives_view _ _ _ _).2 ⟨bound.symm, rfl⟩, ?_⟩
    simp only [gives_bind, gives_pure, compileAll_gives]
    exact ⟨_, _, made, rfl, rfl⟩
  | callVariable form plain bound made =>
    rw [form, compileStep_of_short registry sub form, compileOperand, compileCall_plain registry sub plain, compileBoundCall,
      gives_bind]
    refine ⟨_, w, (gives_view _ _ _ _).2 ⟨bound.symm, rfl⟩, ?_⟩
    simp only [gives_bind, gives_pure, compileAll_gives]
    exact ⟨_, _, made, rfl, rfl⟩
  | callParameter form plain bound made =>
    rw [form, compileStep_of_short registry sub form, compileOperand, compileCall_plain registry sub plain, compileBoundCall,
      gives_bind]
    refine ⟨_, w, (gives_view _ _ _ _).2 ⟨bound.symm, rfl⟩, ?_⟩
    simp only [gives_bind, gives_pure, compileAll_gives]
    exact ⟨_, _, made, rfl, rfl⟩

end

/-! ### More steps never change an answer -/

section

variable {registry : Registry} {make make' : Making} (le : ∀ w env e node w', make w env e node w' → make' w env e node w')

include le

theorem MakesAll.mono {env : Env} {w w' : Workspace} {es : List Expr} {nodes : List Node}
    (h : MakesAll make env w es nodes w') : MakesAll make' env w es nodes w' :=
  h.imp (fun _ _ _ _ => le _ _ _ _ _)

theorem Builds.mono {w w' : Workspace} {env : Env} {c : Expr} {node : Node} (h : Builds registry make w env c node w') :
    Builds registry make' w env c node w' := by
  obtain ⟨entry, captures, groups, hf, hg, hnode⟩ := h
  exact ⟨entry, captures, groups, hf, hg.imp (fun _ _ _ _ h => ⟨h.1, MakesAll.mono le h.2⟩), hnode⟩

theorem MakesDefine.mono {env : Env} {w w' : Workspace} {e : Expr} {name : String} {previous : Option Binding}
    (h : MakesDefine make env w e name previous w') : MakesDefine make' env w e name previous w' := by
  cases h with
  | value form named made => exact .value form named (le _ _ _ _ _ made)
  | function form called named entered declared bound made =>
    exact .function form called named entered declared bound (le _ _ _ _ _ made)

theorem MakesStatements.mono {env : Env} {w w' : Workspace} {ss : List Expr} {nodes : List Node} {ends ends' : Bool}
    (h : MakesStatements make env w ss ends nodes ends' w') : MakesStatements make' env w ss ends nodes ends' w' := by
  induction h with
  | nil w ends => exact .nil w ends
  | define is head _ ih => exact .define is (head.mono le) ih
  | expr is head _ ih => exact .expr is (le _ _ _ _ _ head) ih

theorem Step.mono {w w' : Workspace} {env : Env} {e : Expr} {node : Node} (h : Step registry make w env e node w') :
    Step registry make' w env e node w' := by
  cases h with
  | literal form => exact .literal form
  | variableName form bound => exact .variableName form bound
  | parameterName form bound => exact .parameterName form bound
  | functionName form bound => exact .functionName form bound
  | pattern asks built => exact .pattern asks (built.mono le)
  | lambda form last named entered made declared => exact .lambda form last named entered (le _ _ _ _ _ made) declared
  | block form entered made => exact .block form entered (made.mono le)
  | callFunction form plain bound made => exact .callFunction form plain bound (MakesAll.mono le made)
  | callVariable form plain bound made => exact .callVariable form plain bound (MakesAll.mono le made)
  | callParameter form plain bound made => exact .callParameter form plain bound (MakesAll.mono le made)

end

/-- **The compiler takes exactly the steps of `Step`.** -/
theorem compile_gives_iff (registry : Registry) (n : Nat) (e : Expr) (env : Env) (w : Workspace) (node : Node)
    (w' : Workspace) :
    (compile registry (n + 1) e env).Gives w node w' ↔ Step registry (.of (compile registry n)) w env e node w' :=
  ⟨step_of_compileStep registry _, compileStep_of_step registry _⟩

theorem compile_gives_succ (registry : Registry) : ∀ (n : Nat) (w : Workspace) (env : Env) (e : Expr) (node : Node)
    (w' : Workspace), (compile registry n e env).Gives w node w' → (compile registry (n + 1) e env).Gives w node w'
  | 0, _, _, _, _, _, h => by cases h
  | n + 1, w, env, e, node, w', h => by
    rw [compile_gives_iff] at h ⊢
    exact h.mono (compile_gives_succ registry n)

theorem compile_gives_of_le {registry : Registry} {n m : Nat} (h : n ≤ m) {w : Workspace} {env : Env} {e : Expr}
    {node : Node} {w' : Workspace} (hn : (compile registry n e env).Gives w node w') :
    (compile registry m e env).Gives w node w' := by
  induction h with
  | refl => exact hn
  | step _ ih => exact compile_gives_succ registry _ _ _ _ _ _ ih

/-- **Compilation in any number of nested steps.** -/
def Makes (registry : Registry) : Making := fun w env e node w' => ∃ n, (compile registry n e env).Gives w node w'

theorem Makes.of_compile {registry : Registry} (n : Nat) {w : Workspace} {env : Env} {e : Expr} {node : Node}
    {w' : Workspace} (h : (compile registry n e env).Gives w node w') : Makes registry w env e node w' := ⟨n, h⟩

theorem Makes.unique {registry : Registry} {w w₁ w₂ : Workspace} {env : Env} {e : Expr} {x₁ x₂ : Node}
    (h₁ : Makes registry w env e x₁ w₁) (h₂ : Makes registry w env e x₂ w₂) : x₁ = x₂ ∧ w₁ = w₂ := by
  obtain ⟨n, hn⟩ := h₁
  obtain ⟨m, hm⟩ := h₂
  have hn' := compile_gives_of_le (Nat.le_max_left n m) hn
  have hm' := compile_gives_of_le (Nat.le_max_right n m) hm
  cases hn'.symm.trans hm'
  exact ⟨rfl, rfl⟩

/-! ### Finitely many steps suffice -/

section

variable {registry : Registry}

theorem InOrder.exists_bound {α β : Type} {R : Nat → Workspace → α → β → Workspace → Prop}
    (mono : ∀ n m w a b w', n ≤ m → R n w a b w' → R m w a b w') {w w' : Workspace} {as : List α} {bs : List β}
    (h : InOrder (fun w a b w' => ∃ n, R n w a b w') w as bs w') : ∃ n, InOrder (R n) w as bs w' := by
  induction h with
  | nil w => exact ⟨0, .nil w⟩
  | cons head _ ih =>
    obtain ⟨n, hn⟩ := head
    obtain ⟨m, hm⟩ := ih
    exact ⟨max n m, .cons (mono n _ _ _ _ _ (Nat.le_max_left n m) hn)
      (hm.imp (fun _ _ _ _ => mono m _ _ _ _ _ (Nat.le_max_right n m)))⟩

theorem Making.of_compile_mono (n m : Nat) (w : Workspace) (env : Env) (e : Expr) (node : Node) (w' : Workspace)
    (h : n ≤ m) (hn : Making.of (compile registry n) w env e node w') : Making.of (compile registry m) w env e node w' :=
  compile_gives_of_le h hn

theorem MakesAll.exists_bound {env : Env} {w w' : Workspace} {es : List Expr} {nodes : List Node}
    (h : MakesAll (Makes registry) env w es nodes w') :
    ∃ n, MakesAll (.of (compile registry n)) env w es nodes w' :=
  InOrder.exists_bound (R := fun n w e node w' => Making.of (compile registry n) w env e node w')
    (fun n m w e node w' => Making.of_compile_mono n m w env e node w') h

theorem MakesGroups.exists_bound {env : Env} {w w' : Workspace} {groups : List (String × List Expr)}
    {made : List (String × List Node)} (h : MakesGroups (Makes registry) env w groups made w') :
    ∃ n, MakesGroups (.of (compile registry n)) env w groups made w' := by
  refine InOrder.exists_bound
    (R := fun n w g m w' => m.1 = g.1 ∧ MakesAll (.of (compile registry n)) env w g.2 m.2 w') ?_ (h.imp ?_)
  · rintro n m w g h w' hnm ⟨hname, hall⟩
    exact ⟨hname, MakesAll.mono (fun w env e node w' => Making.of_compile_mono n m w env e node w' hnm) hall⟩
  · rintro w g h w' ⟨hname, hall⟩
    obtain ⟨n, hn⟩ := MakesAll.exists_bound hall
    exact ⟨n, hname, hn⟩

theorem MakesDefine.exists_bound {env : Env} {w w' : Workspace} {e : Expr} {name : String} {previous : Option Binding}
    (h : MakesDefine (Makes registry) env w e name previous w') :
    ∃ n, MakesDefine (.of (compile registry n)) env w e name previous w' := by
  cases h with
  | value form named made =>
    obtain ⟨n, hn⟩ := made
    exact ⟨n, .value form named hn⟩
  | function form called named entered declared bound made =>
    obtain ⟨n, hn⟩ := made
    exact ⟨n, .function form called named entered declared bound hn⟩

theorem MakesStatements.exists_bound {env : Env} {w w' : Workspace} {ss : List Expr} {nodes : List Node}
    {ends ends' : Bool} (h : MakesStatements (Makes registry) env w ss ends nodes ends' w') :
    ∃ n, MakesStatements (.of (compile registry n)) env w ss ends nodes ends' w' := by
  have le : ∀ {n m : Nat}, n ≤ m → ∀ w env e node w', Making.of (compile registry n) w env e node w' →
      Making.of (compile registry m) w env e node w' := fun h w env e node w' => Making.of_compile_mono _ _ w env e node w' h
  induction h with
  | nil w ends => exact ⟨0, .nil w ends⟩
  | define is head _ ih =>
    obtain ⟨n, hn⟩ := head.exists_bound
    obtain ⟨m, hm⟩ := ih
    exact ⟨max n m, .define is (hn.mono (le (Nat.le_max_left n m))) (hm.mono (le (Nat.le_max_right n m)))⟩
  | expr is head _ ih =>
    obtain ⟨n, hn⟩ := head
    obtain ⟨m, hm⟩ := ih
    exact ⟨max n m, .expr is (le (Nat.le_max_left n m) _ _ _ _ _ hn) (hm.mono (le (Nat.le_max_right n m)))⟩

theorem Step.exists_bound {w w' : Workspace} {env : Env} {e : Expr} {node : Node}
    (h : Step registry (Makes registry) w env e node w') :
    ∃ n, Step registry (.of (compile registry n)) w env e node w' := by
  cases h with
  | literal form => exact ⟨0, .literal form⟩
  | variableName form bound => exact ⟨0, .variableName form bound⟩
  | parameterName form bound => exact ⟨0, .parameterName form bound⟩
  | functionName form bound => exact ⟨0, .functionName form bound⟩
  | pattern asks built =>
    obtain ⟨entry, captures, groups, hf, hg, hnode⟩ := built
    obtain ⟨n, hn⟩ := MakesGroups.exists_bound hg
    exact ⟨n, .pattern asks ⟨entry, captures, groups, hf, hn, hnode⟩⟩
  | lambda form last named entered made declared =>
    obtain ⟨n, hn⟩ := made
    exact ⟨n, .lambda form last named entered hn declared⟩
  | block form entered made =>
    obtain ⟨n, hn⟩ := made.exists_bound
    exact ⟨n, .block form entered hn⟩
  | callFunction form plain bound made =>
    obtain ⟨n, hn⟩ := MakesAll.exists_bound made
    exact ⟨n, .callFunction form plain bound hn⟩
  | callVariable form plain bound made =>
    obtain ⟨n, hn⟩ := MakesAll.exists_bound made
    exact ⟨n, .callVariable form plain bound hn⟩
  | callParameter form plain bound made =>
    obtain ⟨n, hn⟩ := MakesAll.exists_bound made
    exact ⟨n, .callParameter form plain bound hn⟩

end

/-- **Compilation is closed under its own steps**, and does nothing else. -/
theorem makes_iff {registry : Registry} {w w' : Workspace} {env : Env} {e : Expr} {node : Node} :
    Makes registry w env e node w' ↔ Step registry (Makes registry) w env e node w' := by
  constructor
  · rintro ⟨n, hn⟩
    cases n with
    | zero => cases hn
    | succ n =>
      rw [compile_gives_iff] at hn
      exact hn.mono (fun _ _ _ _ _ => Makes.of_compile n)
  · intro h
    obtain ⟨n, hn⟩ := h.exists_bound
    exact ⟨n + 1, (compile_gives_iff registry n e env w node w').2 hn⟩

theorem compile_bare (registry : Registry) (n : Nat) (e : Expr) (env : Env) :
    compile registry n e.bare env = compile registry n e env := by
  cases n with
  | zero => rfl
  | succ n =>
    show compileStep _ _ e.bare env = compileStep _ _ e env
    unfold compileStep
    rw [Expr.bare_bare]

theorem makes_bare {registry : Registry} {w w' : Workspace} {env : Env} {e : Expr} {node : Node} :
    Makes registry w env e.bare node w' ↔ Makes registry w env e node w' := by
  unfold Makes
  simp only [compile_bare]

end ChainCalc
