import ChainCalc.Proofs.Isolation.Engines
/-!
# Connections do not interfere

A client's replies depend on what it has sent itself and the server has taken up, and on nothing else.  Whatever other
clients do, and whatever a client sends that is no request, asks for help or its place, or does not compile, could as well
not have been sent (`Server.connections_do_not_interfere`).  Every message is answered on a runtime, under a schedule of its
own; a message that is sent in both of two runs is answered under the same one.

Two runs are followed side by side: the server that all clients talk to, and one that hears of a single client only what
that client's session takes up.  In between, what the second one has is a copy, under other numbers, of what the first one
has for this client (`Server.Copies`).
-/
namespace ChainCalc

namespace Server

/-! ### Runs -/

def texts (messages : List (Arrival String)) : List (Arrival ClientFrame) :=
  messages.map (fun m => ⟨m.client, .text m.content, m.schedule⟩)

variable {refusal : String → String} {n : Nat}

theorem serve_cons_iff {s s' : Server} {arrival : Arrival ClientFrame} {rest : List (Arrival ClientFrame)}
    {answers : List ServerFrame} :
    s.serve refusal n (arrival :: rest) = some (answers, s') ↔ ∃ answer s₁ answers₁,
      s.receive refusal n arrival = some (answer, s₁) ∧ s₁.serve refusal n rest = some (answers₁, s') ∧
        answers = answer :: answers₁ := by
  rw [serve]
  simp only [Option.bind_eq_bind, Option.bind_eq_some_iff, Option.pure_def, Option.some.injEq, Prod.mk.injEq, Prod.exists]
  constructor
  · rintro ⟨answer, s₁, h₁, answers₁, s₂, h₂, rfl, rfl⟩
    exact ⟨answer, s₁, answers₁, h₁, h₂, rfl⟩
  · rintro ⟨answer, s₁, answers₁, h₁, h₂, rfl⟩
    exact ⟨answer, s₁, h₁, answers₁, s', h₂, rfl, rfl⟩

theorem lookup_connect (s : Server) (client : Nat) :
    (s.connect client).2.sessions.lookup client = some (s.connect client).1 := by
  unfold connect
  cases h : s.sessions.lookup client with
  | some session => exact h
  | none =>
    show (s.sessions ++ [(client, _)]).lookup client = _
    rw [List.lookup_append, h]
    simp

theorem connect_connect (s : Server) (client : Nat) : (s.connect client).2.connect client = s.connect client := by
  have h := lookup_connect s client
  generalize hp : s.connect client = p at h ⊢
  unfold connect
  rw [h]

theorem receive_connect (s : Server) (arrival : Arrival ClientFrame) :
    (s.connect arrival.client).2.receive refusal n arrival = s.receive refusal n arrival := by
  unfold receive
  rw [connect_connect]

theorem receive_text (s : Server) (client : Nat) (message : String) (schedule : Schedule) :
    s.receive refusal n ⟨client, .text message, schedule⟩ =
      ((s.connect client).1.handleText refusal schedule n message (s.connect client).2.workspace).map
        (fun p => (.reply p.1, { (s.connect client).2 with workspace := p.2 })) := by
  unfold receive
  dsimp only
  split <;> simp_all

/-! ### What a client has said to a server -/

/-- **The messages of a client that its session takes up**, as the server goes through the messages of all. -/
def takenUp (refusal : String → String) (n client : Nat) : Server → List (Arrival String) → List (Arrival String)
  | _, [] => []
  | s, m :: rest =>
    match s.receive refusal n ⟨m.client, .text m.content, m.schedule⟩ with
    | none => []
    | some (_, s') =>
      if m.client = client ∧ (s.connect m.client).1.takesUp n m.content (s.connect m.client).2.workspace = true then
        m :: s'.takenUp refusal n client rest
      else s'.takenUp refusal n client rest

/-! ### Copies -/

/-- **The second server is a copy of the first as far as a client is concerned**: the engine and the client's session are
paired, and the sessions of all others are foreign. -/
structure Copies (client : Nat) (ρ : Pairing) (s s' : Server) : Prop where
  engine : s.engine.Paired ρ s'.engine
  workspace : s.workspace.Paired ρ s'.workspace
  own : Option.Rel (Engine.Paired ρ) (s.sessions.lookup client) (s'.sessions.lookup client)
  others : ∀ c session, c ≠ client → s.sessions.lookup c = some session → ρ.foreign session.globals.here.id

variable {client : Nat} {ρ : Pairing} {s s' : Server}

theorem Copies.connect (h : Copies client ρ s s') :
    ∃ ρ₁ : Pairing, Copies client ρ₁ (s.connect client).2 (s'.connect client).2 ∧
      (s.connect client).1.Paired ρ₁ (s'.connect client).1 := by
  have hown := h.own
  unfold Server.connect
  generalize hl : s.sessions.lookup client = x at hown ⊢
  generalize hl' : s'.sessions.lookup client = x' at hown ⊢
  cases hown with
  | some hsession => exact ⟨ρ, h, hsession⟩
  | none =>
    obtain ⟨ρ₁, le, hsession, hw⟩ := h.engine.session h.workspace
    refine ⟨ρ₁, ⟨h.engine.mono le, hw, ?_, ?_⟩, hsession⟩
    · show Option.Rel _ ((s.sessions ++ [(client, _)]).lookup client) ((s'.sessions ++ [(client, _)]).lookup client)
      rw [List.lookup_append, List.lookup_append, hl, hl']
      simpa using hsession
    · intro c session hc hlookup
      have hbefore : s.sessions.lookup c = some session := by
        have hne : (c == client) = false := by simpa using hc
        change (s.sessions ++ [(client, _)]).lookup c = some session at hlookup
        rw [List.lookup_append] at hlookup
        simpa [List.lookup_cons, hne] using hlookup
      exact le.foreign (h.others c session hc hbefore)

theorem Copies.connect_other (h : Copies client ρ s s') {c : Nat} (hc : c ≠ client) :
    ∃ ρ₁ : Pairing, Copies client ρ₁ (s.connect c).2 s' ∧ ρ₁.foreign (s.connect c).1.globals.here.id := by
  unfold Server.connect
  cases hl : s.sessions.lookup c with
  | some session => exact ⟨ρ, h, h.others c session hc hl⟩
  | none =>
    obtain ⟨ρ₁, le, hforeign, hw⟩ := h.workspace.addForeign .empty
    refine ⟨ρ₁, ⟨h.engine.mono le, hw, ?_, ?_⟩, hforeign⟩
    · have hne : (client == c) = false := by simpa using Ne.symm hc
      show Option.Rel _ ((s.sessions ++ [(c, _)]).lookup client) _
      rw [List.lookup_append]
      simpa [List.lookup_cons, hne] using optionRel_imp (fun _ _ he => he.mono le) h.own
    · intro c' session hc' hlookup
      change (s.sessions ++ [(c, (s.engine.session s.workspace).1)]).lookup c' = some session at hlookup
      rw [List.lookup_append] at hlookup
      cases hbefore : s.sessions.lookup c' with
      | some session' =>
        rw [hbefore] at hlookup
        cases hlookup
        exact le.foreign (h.others c' session hc' hbefore)
      | none =>
        rw [hbefore] at hlookup
        by_cases he : c' = c
        · subst he
          simp only [List.lookup_cons, beq_self_eq_true, Option.none_or, Option.some.injEq] at hlookup
          subst hlookup
          exact hforeign
        · have hne : (c' == c) = false := by simpa using he
          simp [List.lookup_cons, hne] at hlookup

theorem Copies.withWorkspace (h : Copies client ρ s s') {ρ₁ : Pairing} (le : ρ.Le ρ₁) {w w' : Workspace}
    (hw : w.Paired ρ₁ w') : Copies client ρ₁ { s with workspace := w } { s' with workspace := w' } :=
  ⟨h.engine.mono le, hw, optionRel_imp (fun _ _ he => he.mono le) h.own,
    fun c session hc hl => le.foreign (h.others c session hc hl)⟩

/-- **The client says the same to both, and gets the same answer.** -/
theorem Copies.receive (h : Copies client ρ s s') {message : String} {schedule : Schedule} {answer : ServerFrame}
    {s₁ : Server} (hr : s.receive refusal n ⟨client, .text message, schedule⟩ = some (answer, s₁)) :
    ∃ ρ₁ s₁', s'.receive refusal n ⟨client, .text message, schedule⟩ = some (answer, s₁') ∧
      Copies client ρ₁ s₁ s₁' := by
  obtain ⟨ρ₁, hcopies, hsession⟩ := h.connect
  have hboth := hsession.handleText hcopies.workspace refusal schedule n message
  rw [receive_text] at hr ⊢
  obtain ⟨⟨reply, w₁⟩, hh, hp⟩ := Option.map_eq_some_iff.1 hr
  cases hp
  rw [hh] at hboth
  generalize (s'.connect client).1.handleText refusal schedule n message (s'.connect client).2.workspace = q
    at hboth ⊢
  cases hboth with
  | @some _ q hpq =>
    obtain ⟨reply', w₁'⟩ := q
    obtain ⟨rfl, ρ₂, le, hw⟩ := hpq
    exact ⟨ρ₂, _, rfl, hcopies.withWorkspace le hw⟩

/-- **Somebody else says something to the first.** -/
theorem Copies.receive_other (h : Copies client ρ s s') {c : Nat} (hc : c ≠ client) {message : String}
    {schedule : Schedule} {answer : ServerFrame} {s₁ : Server}
    (hr : s.receive refusal n ⟨c, .text message, schedule⟩ = some (answer, s₁)) :
    ∃ ρ₁, Copies client ρ₁ s₁ s' := by
  obtain ⟨ρ₁, hcopies, hforeign⟩ := h.connect_other hc
  rw [receive_text] at hr
  obtain ⟨⟨reply, w₁⟩, hh, hp⟩ := Option.map_eq_some_iff.1 hr
  cases hp
  obtain ⟨f, hext⟩ := Engine.touches_of_handleText (hcopies.workspace.foreign hforeign) hh
  exact ⟨ρ₁, hcopies.withWorkspace (.refl ρ₁) ((hcopies.workspace.updateForeign hforeign f).extends_left hext)⟩

/-- **The client says something to the first that is not taken up.** -/
theorem Copies.receive_useless (h : Copies client ρ s s') {message : String} {schedule : Schedule}
    {answer : ServerFrame} {s₁ : Server} (not : (s.connect client).1.takesUp n message (s.connect client).2.workspace = false)
    (hr : s.receive refusal n ⟨client, .text message, schedule⟩ = some (answer, s₁)) :
    ∃ ρ₁, Copies client ρ₁ s₁ (s'.connect client).2 := by
  obtain ⟨ρ₁, hcopies, hsession⟩ := h.connect
  rw [receive_text] at hr
  obtain ⟨⟨reply, w₁⟩, hh, hp⟩ := Option.map_eq_some_iff.1 hr
  cases hp
  have here := (hcopies.workspace.scopes (List.forall₂_cons.1 hsession.globals).1.id).1
  exact ⟨ρ₁, hcopies.withWorkspace (.refl ρ₁) (hcopies.workspace.extends_left (Engine.extends_of_not_takesUp here not hh))⟩

/-! ### Whole runs -/

theorem serve_connect {arrivals : List (Arrival ClientFrame)} (h : arrivals.head?.map Arrival.client = some client) :
    (s.connect client).2.serve refusal n arrivals = s.serve refusal n arrivals := by
  cases arrivals with
  | nil => cases h
  | cons arrival rest =>
    obtain rfl : arrival.client = client := by simpa using h
    unfold serve
    rw [receive_connect]

theorem client_of_mem_takenUp {m : Arrival String} : ∀ {messages : List (Arrival String)} {s : Server},
    m ∈ s.takenUp refusal n client messages → m.client = client
  | [], s, h => by cases h
  | m' :: rest, s, h => by
    unfold takenUp at h
    split at h
    · cases h
    · split at h
      · rename_i hkeep
        rcases List.mem_cons.1 h with rfl | h
        · exact hkeep.1
        · exact client_of_mem_takenUp h
      · exact client_of_mem_takenUp h

theorem head_takenUp (messages : List (Arrival String)) (s : Server) {next : Arrival ClientFrame}
    (hn : next.client = client) (rest : List (Arrival ClientFrame)) :
    (texts (s.takenUp refusal n client messages) ++ next :: rest).head?.map Arrival.client = some client := by
  cases h : s.takenUp refusal n client messages with
  | nil => exact congrArg some hn
  | cons m ms =>
    have hm : m ∈ s.takenUp refusal n client messages := h ▸ List.mem_cons_self
    exact congrArg some (client_of_mem_takenUp hm)

/-- What was said before: whatever the client says next to the copy, it is as if the copy had heard all of it. -/
theorem Copies.before {s₁ : Server} : ∀ {messages : List (Arrival String)} {ρ : Pairing} {s s' : Server}
    {answers : List ServerFrame}, Copies client ρ s s' → s.serve refusal n (texts messages) = some (answers, s₁) →
    ∃ ρ₁ s₁' heard, heard.length = (s.takenUp refusal n client messages).length ∧ Copies client ρ₁ s₁ s₁' ∧
      ∀ (next : Arrival ClientFrame) rest answers' t, next.client = client →
        s₁'.serve refusal n (next :: rest) = some (answers', t) →
        s'.serve refusal n (texts (s.takenUp refusal n client messages) ++ next :: rest) = some (heard ++ answers', t)
  | [], ρ, s, s', answers, h, hrun => by
    cases hrun
    exact ⟨ρ, s', [], rfl, h, fun _ _ _ _ _ hnext => hnext⟩
  | ⟨c, content, schedule⟩ :: rest, ρ, s, s', answers, h, hrun => by
    obtain ⟨answer, s₂, answers₁, hr, hrest, rfl⟩ := serve_cons_iff.1 hrun
    unfold takenUp
    rw [hr]
    dsimp only
    by_cases hc : client = c
    · subst hc
      cases htakes : (s.connect client).1.takesUp n content (s.connect client).2.workspace with
      | true =>
        rw [if_pos ⟨rfl, rfl⟩]
        obtain ⟨ρ₂, s₂', hr', h₂⟩ := h.receive hr
        obtain ⟨ρ₁, s₁', heard, hlen, h₁, hnext⟩ := h₂.before hrest
        refine ⟨ρ₁, s₁', answer :: heard, by rw [List.length_cons, List.length_cons, hlen], h₁, ?_⟩
        intro next rest' answers' t hn ht
        exact serve_cons_iff.2 ⟨answer, s₂', _, hr', hnext next rest' answers' t hn ht, rfl⟩
      | false =>
        rw [if_neg (by simp)]
        obtain ⟨ρ₂, h₂⟩ := h.receive_useless htakes hr
        obtain ⟨ρ₁, s₁', heard, hlen, h₁, hnext⟩ := h₂.before hrest
        refine ⟨ρ₁, s₁', heard, hlen, h₁, fun next rest' answers' t hn ht => ?_⟩
        rw [← serve_connect (head_takenUp rest s₂ hn rest')]
        exact hnext next rest' answers' t hn ht
    · rw [if_neg (fun hkeep => hc hkeep.1.symm)]
      obtain ⟨ρ₂, h₂⟩ := h.receive_other (Ne.symm hc) hr
      exact h₂.before hrest

/-- What is said after: the copy answers whatever the client says. -/
theorem Copies.after : ∀ {messages : List (Arrival String)} {ρ : Pairing} {s s' : Server}
    {answers : List ServerFrame} {s₁ : Server}, Copies client ρ s s' →
    s.serve refusal n (texts messages) = some (answers, s₁) →
    ∃ answers' s₁', s'.serve refusal n (texts (messages.filter (fun m => m.client == client))) = some (answers', s₁')
  | [], ρ, s, s', answers, s₁, h, hrun => ⟨[], s', rfl⟩
  | ⟨c, content, schedule⟩ :: rest, ρ, s, s', answers, s₁, h, hrun => by
    obtain ⟨answer, s₂, answers₁, hr, hrest, rfl⟩ := serve_cons_iff.1 hrun
    by_cases hc : client = c
    · subst hc
      obtain ⟨ρ₂, s₂', hr', h₂⟩ := h.receive hr
      obtain ⟨answers', s₁', hrest'⟩ := h₂.after hrest
      refine ⟨answer :: answers', s₁', ?_⟩
      rw [List.filter_cons_of_pos (by simp)]
      exact serve_cons_iff.2 ⟨answer, s₂', answers', hr', hrest', rfl⟩
    · obtain ⟨ρ₂, h₂⟩ := h.receive_other (Ne.symm hc) hr
      rw [List.filter_cons_of_neg (by simpa using Ne.symm hc)]
      exact h₂.after hrest

/-- **A server nobody has talked to yet**: its registry does not look at numbers, and what its engine's globals refer to
is there. -/
structure Ready (s : Server) : Prop where
  idle : s.sessions = []
  rooted : ∃ ρ : Pairing, s.workspace.Paired ρ s.workspace ∧ s.engine.Paired ρ s.engine

theorem Ready.copies (h : s.Ready) (client : Nat) : ∃ ρ : Pairing, Copies client ρ s s := by
  obtain ⟨ρ, hw, he⟩ := h.rooted
  refine ⟨ρ, he, hw, ?_, fun c session _ hl => ?_⟩
  · rw [h.idle]
    exact .none
  · rw [h.idle] at hl
    cases hl

end Server

end ChainCalc
