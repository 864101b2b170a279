import ChainCalc.Compile
import ChainCalc.Proofs.Matching.Offers
import ChainCalc.Proofs.Matching.Soundness
/-!
# The operands of a computation — in which order captures get to it

A match reports its captures from left to right.  On their way to a factory they are put into a table by placeholder, so a
computation gets them name by name, the names in the order of their first capture (`byName`), one operand for each capture
(`fromRegistry_of_kernel`).  That is the order of the match as long as no placeholder comes back after another one
(`kernel_operands_of_match`); a pattern where one does swaps operands (`operands_out_of_match_order`).
-/
namespace ChainCalc

open CompileM

/-! ### Captures name by name -/

section

variable {α : Type}

def byName (log : List (String × α)) : List (String × α) :=
  (log.map Prod.fst).eraseDups.flatMap (fun name => log.filter (fun r => r.1 == name))

theorem byName_cons (r : String × α) (log : List (String × α)) :
    byName (r :: log) = r :: log.filter (fun x => x.1 == r.1) ++ byName (log.filter (fun x => !x.1 == r.1)) := by
  have names : ((log.map Prod.fst).filter (fun name => !name == r.1)) = (log.filter (fun x => !x.1 == r.1)).map Prod.fst :=
    List.filter_map
  unfold byName
  rw [List.map_cons, List.eraseDups_cons, names, List.flatMap_cons, List.filter_cons, if_pos (beq_self_eq_true r.1)]
  refine congrArg _ (List.flatMap_congr (fun name hname => ?_))
  obtain ⟨x, hx, rfl⟩ := List.mem_map.1 (List.mem_eraseDups.1 hname)
  have other : (x.1 == r.1) = false := by simpa using (List.mem_filter.1 hx).2
  rw [List.filter_cons, if_neg (by simpa using fun h => by simp [h] at other), List.filter_filter]
  refine List.filter_congr (fun y _ => ?_)
  by_cases hy : y.1 = x.1
  · simp [hy, other]
  · simp [hy]

theorem byName_perm : ∀ log : List (String × α), (byName log).Perm log
  | [] => .nil
  | r :: log => by
    have others := byName_perm (log.filter (fun x => !x.1 == r.1))
    rw [byName_cons]
    exact ((others.append_left _).trans (List.filter_append_perm _ log)).cons r
termination_by log => log.length
decreasing_by exact Nat.lt_succ_of_le (List.length_filter_le _ _)

/-- No name comes back after another one. -/
def Together : List String → Prop
  | [] => True
  | name :: rest => name ∉ rest.dropWhile (fun other => other == name) ∧ Together rest

instance Together.decidable : DecidablePred Together
  | [] => .isTrue trivial
  | _ :: rest => @instDecidableAnd _ _ _ (Together.decidable rest)

theorem Together.dropWhile {p : String → Bool} : ∀ {names : List String}, Together names → Together (names.dropWhile p)
  | [], h => h
  | _ :: _, h => by
    rw [List.dropWhile_cons]
    split
    · exact Together.dropWhile h.2
    · exact h

theorem filter_of_dropWhile {p : α → Bool} : ∀ {l : List α}, (∀ x ∈ l.dropWhile p, p x = false) →
    l.filter p = l.takeWhile p ∧ l.filter (fun x => !p x) = l.dropWhile p
  | [], _ => ⟨rfl, rfl⟩
  | a :: l, h => by
    rw [List.dropWhile_cons] at h ⊢
    cases ha : p a with
    | true =>
      rw [ha, if_pos rfl] at h
      obtain ⟨taken, left⟩ := filter_of_dropWhile h
      simp [ha, taken, left]
    | false =>
      rw [ha, if_neg Bool.false_ne_true] at h
      exact ⟨by simpa [ha] using (List.forall_mem_cons.1 h).2, by simpa [ha] using (List.forall_mem_cons.1 h).2⟩

/-- **Where no name comes back, the pairs are in place.** -/
theorem byName_of_together : ∀ log : List (String × α), Together (log.map Prod.fst) → byName log = log
  | [], _ => rfl
  | r :: log, h => by
    have names : (log.map Prod.fst).dropWhile (fun name => name == r.1) = (log.dropWhile (fun x => x.1 == r.1)).map Prod.fst :=
      List.dropWhile_map ..
    have gone : r.1 ∉ (log.dropWhile (fun x => x.1 == r.1)).map Prod.fst := names ▸ h.1
    have rest : Together ((log.dropWhile (fun x => x.1 == r.1)).map Prod.fst) := names ▸ Together.dropWhile h.2
    obtain ⟨own, others⟩ := filter_of_dropWhile (p := fun x : String × α => x.1 == r.1) (l := log) (fun x hx => by
      simpa using fun same : x.1 = r.1 => gone (List.mem_map.2 ⟨x, hx, same⟩))
    rw [byName_cons, own, others, byName_of_together _ rest, List.cons_append, List.takeWhile_append_dropWhile]
termination_by log => log.length
decreasing_by exact Nat.lt_succ_of_le (List.length_dropWhile_le _ _)

end

/-! ### The table of captures -/

namespace Captures

/-- Reports behind the first placeholder: its own go to its captures, the others to the rest of the table. -/
theorem foldl_push_cons {name : String} : ∀ {log : List (String × Expr)} {es : List Expr} {entries : List (String × List Expr)},
    (log.foldl (fun c r => Captures.push c r.1 r.2) ⟨(name, es) :: entries⟩).entries =
      (name, es ++ (log.filter (fun r => r.1 == name)).map Prod.snd) ::
        ((log.filter (fun r => !r.1 == name)).foldl (fun c r => Captures.push c r.1 r.2) ⟨entries⟩).entries
  | [], es, entries => by simp
  | r :: log, es, entries => by
    obtain ⟨k, e⟩ := r
    by_cases hk : k = name
    · subst hk
      have push : Captures.push ⟨(k, es) :: entries⟩ k e = ⟨(k, es ++ [e]) :: entries⟩ := by
        simp [Captures.push, Table.insert, Table.get?, Table.put]
      rw [List.foldl_cons, push, foldl_push_cons]
      simp
    · have push : Captures.push ⟨(name, es) :: entries⟩ k e = ⟨(name, es) :: (Captures.push ⟨entries⟩ k e).entries⟩ := by
        have hne : (k == name) = false := by simpa using hk
        simp [Captures.push, Table.insert, Table.get?, Table.put, List.lookup_cons, hne, Ne.symm hk]
      rw [List.foldl_cons, push, foldl_push_cons]
      simp [hk]

/-- **Collected captures lie name by name.** -/
theorem flatMap_collect : ∀ log : List (String × Expr), (collect log).entries.flatMap Prod.snd = (byName log).map Prod.snd
  | [] => rfl
  | r :: log => by
    have others := flatMap_collect (log.filter (fun x => !x.1 == r.1))
    have head : collect (r :: log) = ⟨(log.foldl (fun c r => Captures.push c r.1 r.2) ⟨[(r.1, [r.2])]⟩).entries⟩ := rfl
    rw [head, foldl_push_cons, byName_cons, List.flatMap_cons, List.map_append, List.map_cons]
    exact congrArg _ others
termination_by log => log.length
decreasing_by exact Nat.lt_succ_of_le (List.length_filter_le _ _)

theorem nodup_keys_collect (log : List (String × Expr)) : (collect log).keys.Nodup := by
  have hfold : ∀ (log : List (String × Expr)) {c : Captures}, c.keys.Nodup →
      (log.foldl (fun c r => Captures.push c r.1 r.2) c).keys.Nodup := by
    intro log
    induction log with
    | nil => exact fun h => h
    | cons r log ih => exact fun h => ih (Table.nodup_keys_insert h r.1 _)
  exact hfold log .nil

end Captures

/-! ### Captures compiled -/

section

variable (sub : Expr → Env → CompileM Node) (env : Env) {β : Type}

theorem compileAll_append (es es' : List Expr) : compileAll sub (es ++ es') env =
    (do let nodes ← compileAll sub es env; let nodes' ← compileAll sub es' env; pure (nodes ++ nodes')) :=
  List.mapM_append

theorem mapM_groups (next : List Node → CompileM β) : ∀ (groups : List (String × List Expr)) (made : List (String × List Node)),
    (made.map Prod.fst ++ groups.map Prod.fst).Nodup →
      (groups.mapM (fun g => do let nodes ← compileAll sub g.2 env; pure (g.1, nodes))) >>= (fun rest =>
          next (Table.ofList (made ++ rest)).values.flatten) =
        compileAll sub (groups.flatMap Prod.snd) env >>= fun nodes => next ((made.map Prod.snd).flatten ++ nodes)
  | [], made, nodup => by
    have made' : Table.ofList made = ⟨made⟩ := Table.ofList_entries (t := ⟨made⟩) (by simpa [Table.keys] using nodup)
    rw [List.mapM_nil, pure_bind, List.append_nil, made', List.flatMap_nil]
    show _ = compileAll sub [] env >>= _
    rw [compileAll, List.mapM_nil, pure_bind, List.append_nil]
    rfl
  | g :: groups, made, nodup => by
    rw [List.mapM_cons, List.flatMap_cons, compileAll_append]
    simp only [bind_assoc, pure_bind]
    refine congrArg (compileAll sub g.2 env >>= ·) (funext fun nodes => ?_)
    have again := mapM_groups next groups (made ++ [(g.1, nodes)]) (by simpa using nodup)
    simpa [List.append_assoc] using again

/-- **A computation gets one operand for each capture, name by name.** -/
theorem fromRegistry_of_kernel {registry : Registry} {candidate : Expr} {entry : Entry} {compute : Kernel}
    {log : List (String × Expr)} (found : registry.find? candidate = some (entry, .collect log))
    (kernel : entry.factory = .ofKernel compute) :
    fromRegistry registry sub candidate env = (do
      let nodes ← compileAll sub ((byName log).map Prod.snd) env
      pure (some (.kernel entry.name candidate.text nodes compute))) := by
  have groups := mapM_groups sub env
    (fun nodes => (pure (some (.kernel entry.name candidate.text nodes compute)) : CompileM (Option Node)))
    (Captures.collect log).entries [] (Captures.nodup_keys_collect log)
  rw [Captures.flatMap_collect] at groups
  rw [fromRegistry, found]
  simp only [kernel, compileCaptures, bind_assoc, pure_bind]
  exact groups

end

/-! ### Placeholders and reports in the same order -/

theorem dropWhile_append_of_all {α : Type} {p : α → Bool} {l m : List α} (h : ∀ a ∈ l, p a = true) :
    (l ++ m).dropWhile p = m.dropWhile p := by
  rw [List.dropWhile_append, List.dropWhile_eq_nil_iff.2 h]
  rfl

theorem notMem_dropWhile_reports {name : String} : ∀ {sites : List Site} {filling : Filling},
    name ∉ (sites.map Site.name).dropWhile (fun other => other == name) →
      name ∉ ((reports sites filling).map Prod.fst).dropWhile (fun other => other == name)
  | [], _, h => h
  | _ :: _, [], _ => by simp [reports]
  | s :: sites, es :: filling, h => by
    rw [List.map_cons, List.dropWhile_cons] at h
    cases own : s.name == name with
    | true =>
      rw [own, if_pos rfl] at h
      rw [names_reports_cons, dropWhile_append_of_all (by simpa using fun _ => eq_of_beq own)]
      exact notMem_dropWhile_reports h
    | false =>
      rw [own, if_neg Bool.false_ne_true] at h
      exact fun hin => h (mem_names_of_reports ((List.dropWhile_sublist _).mem hin))

theorem together_append_of_all {name : String} {l m : List String} (h : ∀ a ∈ l, a = name) (hm : Together m)
    (gone : name ∉ m.dropWhile (fun other => other == name)) : Together (l ++ m) := by
  induction l with
  | nil => exact hm
  | cons a l ih =>
    obtain ⟨rfl, rest⟩ := List.forall_mem_cons.1 h
    refine ⟨?_, ih rest⟩
    show a ∉ (l ++ m).dropWhile (fun other => other == a)
    rw [dropWhile_append_of_all (by simpa using rest)]
    exact gone

theorem together_reports : ∀ {sites : List Site} {filling : Filling}, Together (sites.map Site.name) →
    Together ((reports sites filling).map Prod.fst)
  | [], _, _ => trivial
  | _ :: _, [], _ => by
    simp only [reports, List.zip_nil_right, List.flatMap_nil, List.map_nil]
    trivial
  | s :: sites, es :: filling, h => by
    rw [names_reports_cons]
    exact together_append_of_all (by simp) (together_reports h.2) (notMem_dropWhile_reports h.1)

/-! ### The order of a match -/

/-- **The operands of a computation are the captures of the match, name by name**, each once; and if no placeholder of the
pattern comes back after another one, they are in the order of the match. -/
theorem kernel_operands_of_match {registry : Registry} {candidate : Expr} {entry : Entry} {captures : Captures} {p : Pattern}
    {compute : Kernel} (plain : candidate.holes = []) (found : registry.find? candidate = some (entry, captures))
    (matched : p.capture? candidate = some captures) (kernel : entry.factory = .ofKernel compute)
    (sub : Expr → Env → CompileM Node) (env : Env) :
    ∃ log, p.expr.matchLog (fun _ _ => true) candidate = (true, log) ∧
      fromRegistry registry sub candidate env = (do
        let nodes ← compileAll sub ((byName log).map Prod.snd) env
        pure (some (.kernel entry.name candidate.text nodes compute))) ∧
      (byName log).Perm log ∧ (Together p.expr.holes → byName log = log) := by
  obtain ⟨log, matching, rfl, -⟩ := Pattern.exists_log_of_capture? handedDown_true handedDown_true trivial trivial matched
  refine ⟨log, matching, fromRegistry_of_kernel sub env found kernel, byName_perm log, fun together => ?_⟩
  obtain ⟨filling, -, rfl, -⟩ := explain_expr plain matching
  refine byName_of_together _ (together_reports ?_)
  rw [Expr.map_name_sites]
  exact together

def threeArguments (names : List String) (compute : Kernel) : Registry :=
  ⟨[⟨"f", [.ofExpr (.call "f" (names.map Expr.ident))], .ofKernel compute, ""⟩]⟩

def oneTwoThree : Expr := .call "f" [.lit (.int 1), .lit (.int 2), .lit (.int 3)]

theorem compileAll_literals (registry : Registry) (env : Env) : ∀ values : List Literal,
    compileAll (compile registry 1) (values.map Expr.lit) env = pure (values.map (fun v => .constant v.value))
  | [] => rfl
  | v :: values => by
    have rest := compileAll_literals registry env values
    unfold compileAll at rest ⊢
    rw [List.map_cons, List.mapM_cons, rest]
    rfl

theorem kernel_operands_of_match_repeated :
    let p : Pattern := .ofExpr (.call "f" [.ident "_a", .ident "_b", .ident "_b"])
    let compute : Kernel := fun _ => .ok (.bool true)
    let registry := threeArguments ["_a", "_b", "_b"] compute
    ∃ log, p.expr.matchLog (fun _ _ => true) oneTwoThree = (true, log) ∧
      fromRegistry registry (compile registry 1) oneTwoThree ⟨⟨0, 0⟩, []⟩ = (do
        let nodes ← compileAll (compile registry 1) (log.map Prod.snd) ⟨⟨0, 0⟩, []⟩
        pure (some (.kernel "f" oneTwoThree.text nodes compute))) := by
  intro p compute registry
  have found : registry.find? oneTwoThree = some (⟨"f", [p], .ofKernel compute, ""⟩,
      ⟨[("_a", [.lit (.int 1)]), ("_b", [.lit (.int 2), .lit (.int 3)])]⟩) := by
    cbv
  have matched : (Pattern.ofExpr (.call "f" [.ident "_a", .ident "_b", .ident "_b"])).capture? oneTwoThree =
      some ⟨[("_a", [.lit (.int 1)]), ("_b", [.lit (.int 2), .lit (.int 3)])]⟩ := by
    cbv
  obtain ⟨log, matching, built, -, order⟩ := kernel_operands_of_match (by decide) found matched rfl (compile registry 1)
    ⟨⟨0, 0⟩, []⟩
  rw [order (by decide)] at built
  exact ⟨log, matching, built⟩

/-- **Where a placeholder comes back, operands change places**: the match reports one, two, three, and the computation gets
one, three, two. -/
theorem operands_out_of_match_order :
    let p : Pattern := .ofExpr (.call "f" [.ident "_a", .ident "_b", .ident "_a"])
    let compute : Kernel := fun _ => .ok (.bool true)
    let registry := threeArguments ["_a", "_b", "_a"] compute
    p.expr.matchLog (fun _ _ => true) oneTwoThree =
        (true, [("_a", .lit (.int 1)), ("_b", .lit (.int 2)), ("_a", .lit (.int 3))]) ∧
      fromRegistry registry (compile registry 1) oneTwoThree ⟨⟨0, 0⟩, []⟩ =
        pure (some (.kernel "f" oneTwoThree.text [.constant (.int 1), .constant (.int 3), .constant (.int 2)] compute)) := by
  intro p compute registry
  refine ⟨by cbv, ?_⟩
  have found : registry.find? oneTwoThree = some (⟨"f", [p], .ofKernel compute, ""⟩,
      .collect [("_a", .lit (.int 1)), ("_b", .lit (.int 2)), ("_a", .lit (.int 3))]) := by
    cbv
  rw [fromRegistry_of_kernel _ _ found rfl]
  have gathered : (byName [("_a", Expr.lit (.int 1)), ("_b", .lit (.int 2)), ("_a", .lit (.int 3))]).map Prod.snd =
      [Literal.int 1, .int 3, .int 2].map Expr.lit := by
    cbv
  rw [gathered, compileAll_literals, pure_bind]
  rfl

end ChainCalc
