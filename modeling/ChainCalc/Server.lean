import ChainCalc.Engine
import ChainCalc.Message
/-!
# Servers — one session for each client

A client gets a session when it first sends something, and a new one when it comes back after closing.  Requests are
answered one at a time, each on a runtime under a schedule of its own.  What is wrong with a text that is no request, the
decoder says in its own words.
-/
namespace ChainCalc

/-- A failure as a reply.  An evaluation error speaks for itself and brings its trace. -/
def Failure.toReply (id : Option Nat) : Failure → Reply
  | .eval e => .error id e.text (Trace.lines e.trace)
  | failure => .error id failure.text []

/-- **What a session answers to a request**, and the workspace after it. -/
def Engine.handle (session : Engine) (s : Schedule) (n : Nat) (request : Request) (w : Workspace) :
    Option (Reply × Workspace) :=
  match request with
  | .run id source =>
    match (session.runUnder s n source).run w with
    | none => none
    | some (.ok v, w) => some (.result id (.ofValue v), w)
    | some (.error failure, w) => some (failure.toReply (some id), w)
  | .define name source =>
    match (session.runUnder s n source).run w with
    | none => none
    | some (.ok v, w) => some (.defined name, session.defineValue name v w)
    | some (.error failure, w) => some (failure.toReply none, w)
  | .help name => some (.help name (session.registry.help? name), w)
  | .locality =>
    let place := session.settings.locality.getD ⟨0, 1, []⟩
    some (.locality place.worker place.workers, w)

def invalidMessage (reason : String) : Reply := .error none ("Invalid message: " ++ reason) []

/-- What a session answers to the text of a message.  `refusal` has the decoder's words for a text that is no request. -/
def Engine.handleText (session : Engine) (refusal : String → String) (s : Schedule) (n : Nat) (message : String)
    (w : Workspace) : Option (Reply × Workspace) :=
  match Request.parse? message with
  | some request => session.handle s n request w
  | none => some (invalidMessage (refusal message), w)

inductive ClientFrame where
  | text (message : String)
  | binary
  | close
  deriving DecidableEq, Repr, Inhabited

/-- Something from a client, with the schedule that it is answered under. -/
structure Arrival (α : Type) where
  client : Nat
  content : α
  schedule : Schedule

/-- What a client gets back: a reply, nothing, or the end of its connection with the number of those that remain. -/
inductive ServerFrame where
  | reply (reply : Reply)
  | silence
  | closed (connections : Nat)
  deriving Inhabited

structure Server where
  engine : Engine
  workspace : Workspace
  sessions : List (Nat × Engine)

namespace Server

def connect (s : Server) (client : Nat) : Engine × Server :=
  match s.sessions.lookup client with
  | some session => (session, s)
  | none =>
    let (session, w) := s.engine.session s.workspace
    (session, { s with workspace := w, sessions := s.sessions ++ [(client, session)] })

section

variable (refusal : String → String)

/-- **One frame from one client**, and the server after it. -/
def receive (s : Server) (n : Nat) (arrival : Arrival ClientFrame) : Option (ServerFrame × Server) :=
  let (session, s) := s.connect arrival.client
  match arrival.content with
  | .text message =>
    match session.handleText refusal arrival.schedule n message s.workspace with
    | none => none
    | some (reply, w) => some (.reply reply, { s with workspace := w })
  | .binary => some (.silence, s)
  | .close =>
    let rest := s.sessions.filter (fun c => c.1 != arrival.client)
    some (.closed rest.length, { s with sessions := rest })

def serve (n : Nat) : Server → List (Arrival ClientFrame) → Option (List ServerFrame × Server)
  | s, [] => some ([], s)
  | s, arrival :: rest => do
    let (answer, s) ← s.receive refusal n arrival
    let (answers, s) ← serve n s rest
    return (answer :: answers, s)

end

/-- Frames one after another, where nothing is heard of out of order and the decoder gives no reasons. -/
def receiveAll (n : Nat) (s : Server) (frames : List (Nat × ClientFrame)) : Option (List ServerFrame × Server) :=
  s.serve (fun _ => "") n (frames.map (fun (client, frame) => ⟨client, frame, .inOrder⟩))

end Server

end ChainCalc
