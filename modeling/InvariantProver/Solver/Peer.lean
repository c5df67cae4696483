import InvariantProver.SExpr.Balance
import InvariantProver.Smt.Command
import InvariantProver.Text.Blank
import InvariantProver.Text.Quoted

namespace InvariantProver

open Text

inductive Line
  | text (s : String)
  | interruption (cancels : Bool)

inductive PeerEvent
  | started (argv : List String)
  | received (c : Command)
  | killed
  | closed

def PeerEvent.text : PeerEvent → String
  | started argv => "<start> " ++ " ".intercalate argv
  | received c => c.text ++ "\n"
  | killed => "<kill>"
  | closed => "<close>"

inductive PeerFault
  | noSuchProgram (program : String)
  | brokenPipe

def PeerFault.message : PeerFault → String
  | noSuchProgram program => "[Errno 2] No such file or directory: " ++ quoted program
  | brokenPipe => "[Errno 32] Broken pipe"

structure Peer where
  missing : Bool := false
  unread : List Line := []
  /-- The output that follows the last of the received commands. -/
  react : List Command → List Line := fun _ => []
  accepts : Option Nat := none
  hangs : Bool := false
  exitCode : Int := 0
  exited : Option Int := none
  events : List PeerEvent := []

def killedCode : Int := -9

inductive Reading
  | response (text : String)
  | interruption (cancels : Bool)
  | ended

namespace Peer

def isRunning (p : Peer) : Bool := p.exited.isNone

def note (event : PeerEvent) (p : Peer) : Peer := { p with events := p.events ++ [event] }

def received (p : Peer) : List Command :=
  p.events.filterMap fun
    | .received c => some c
    | _ => none

def start (argv : List String) (p : Peer) : Except PeerFault Peer :=
  if p.missing then .error (.noSuchProgram (argv.headD "")) else .ok (p.note (.started argv))

/-- A process that has ended does not react, but the pipe may still take commands. -/
def write (c : Command) (p : Peer) : Except PeerFault Peer :=
  if p.accepts = some 0 then .error .brokenPipe
  else
    let p := { p.note (.received c) with accepts := p.accepts.map (· - 1) }
    .ok (if p.isRunning then { p with unread := p.unread ++ p.react p.received } else p)

def content? (s : String) : Option String :=
  match trim s.toList with
  | [] => none
  | ';' :: _ => none
  | cs => some (String.ofList cs)

def gather (text? : Option String) : List Line → Reading × List Line
  | [] => (.ended, [])
  | .interruption cancels :: rest => (.interruption cancels, rest)
  | .text s :: rest =>
    match content? s with
    | none => gather text? rest
    | some line =>
      let text := match text? with
        | some text => text ++ " " ++ line
        | none => line
      if SExpr.isComplete text then (.response text, rest) else gather (some text) rest

def finish (p : Peer) : Peer := { p with exited := some (p.exited.getD p.exitCode) }

def kill (p : Peer) : Peer :=
  if p.isRunning then { p.note .killed with exited := some killedCode } else p

def read (p : Peer) : Reading × Peer :=
  let (reading, rest) := gather none p.unread
  (reading, { p with unread := rest })

def shut (p : Peer) : Peer :=
  let p := p.note .closed
  (if p.hangs then p.kill else p).finish.note .closed

end Peer

end InvariantProver
