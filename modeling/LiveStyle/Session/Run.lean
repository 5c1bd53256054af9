import LiveStyle.Session.Command

/-! # Sessions

A session is a host that builds styles under names, moves them into bindings, and
reads or evaluates what it holds, one command after the other.  All styles of a
session share its scroll source; each keeps the division policy it was built under.
A refused command changes nothing.
-/
namespace LiveStyle

structure Session where
  host : Host Environment
  policy : DivisionPolicy
  store : Session.Store

namespace Session

def start (source : Environment) (policy : DivisionPolicy) : Session := ⟨⟨source, #[]⟩, policy, []⟩

def put (session : Session) (id : String) (held : Held) : Session :=
  { session with store := session.store.put id held }

def takeStyle (session : Session) (id : String) : Except Refusal (Style × Session) :=
  match session.store.find? id with
  | none => .error .noSuchId
  | some (.binding _) => .error .notANode
  | some (.style style) => .ok (style, { session with store := session.store.erase id })

def takeNode (session : Session) (id : String) : Except Refusal (Node × Session) :=
  match session.takeStyle id with
  | .ok (.number node, session) => .ok (node, session)
  | .ok _ => .error .notANode
  | .error refusal => .error refusal

def findBinding (session : Session) (id : String) :
    Except Refusal (Binding Style StyleValue) :=
  match session.store.find? id with
  | none => .error .noSuchId
  | some (.style _) => .error .wrongKind
  | some (.binding binding) => .ok binding

def find (session : Session) (id : String) : Except Refusal Held :=
  match session.store.find? id with
  | none => .error .noSuchId
  | some held => .ok held

def reading {α : Type} (session : Session) (read : Environment → α × Environment) : α × Session :=
  let (a, host) := session.host.reading read
  (a, { session with host })

def read (session : Session) : Reading → Reply × Session
  | .offset => let (x, session) := session.reading ScrollSource.offset; (.float x, session)
  | .extent => let (x, session) := session.reading ScrollSource.extent; (.float x, session)
  | .viewportHeight =>
    let (x, session) := session.reading ScrollSource.viewportHeight; (.float x, session)
  | .metrics => let (m, session) := session.reading ScrollSource.metrics; (.metrics m, session)
  | .named v => let (x, session) := session.reading v.read; (.float x, session)

def setMetrics (session : Session) (metrics : ScrollMetrics) : Except Refusal Session :=
  match session.host.source with
  | .recording source =>
    .ok { session with host := { session.host with source := .recording (source.set metrics) } }
  | _ => .error .notRecording

/-- Evaluate a style held by the session or by one of its bindings, in place. -/
def evaluateHeld (session : Session) (id : String) (path : List Node.Step) :
    Held → Option StyleValue × Session
  | .style style =>
    let o := style.evaluateAt path session.host
    (o.value, { session with host := o.host }.put id (.style o.next))
  | .binding binding =>
    let o := binding.tree.evaluateAt path session.host
    (o.value, { session with host := o.host }.put id (.binding { binding with tree := o.next }))

def Held.isConstant : Held → Bool
  | style s => s.isConstant
  | binding b => b.isConstant

def run (session : Session) : Command → Except Refusal (Reply × Session)
  | .set metrics => do
    return (.done, ← session.setMetrics metrics)
  | .read reading => return session.read reading
  | .division policy => return (.policy policy, { session with policy })
  | .build id recipe => do
    let (style, log) := recipe.build session.policy session.host.log
    let session := { session with host := { session.host with log } }
    return (.style style, session.put id (.style style))
  | .combine id symbol left right => do
    let (l, rest) ← session.takeNode left
    let (r, rest) ← rest.takeNode right
    let style := .number (.join session.policy symbol l r)
    return (.style style, rest.put id (.style style))
  | .bind id style => do
    let (tree, rest) ← session.takeStyle style
    let binding := Binding.start tree
    return (.binding binding.isConstant binding.current, rest.put id (.binding binding))
  | .replace id style keep => do
    let (tree, rest) ← session.takeStyle style
    let binding ← session.findBinding id
    let (old, binding) := binding.replace tree
    let o := old.evaluate rest.host
    let session := { rest with host := o.host }.put id (.binding binding)
    let session := match keep with
      | some name => session.put name (.style o.next)
      | none => session
    return (.value (some o.value), session)
  | .refresh id => do
    let binding ← session.findBinding id
    let o := binding.refresh session.host
    return (.value o.value, { session with host := o.host }.put id (.binding o.next))
  | .current id => do
    let binding ← session.findBinding id
    return (.value binding.current, session)
  | .evaluate id path => do
    let (value, session) := session.evaluateHeld id path (← session.find id)
    return (.value value, session)
  | .isConstant id => do
    return (.flag (← session.find id).isConstant, session)
  | .drop id =>
    return (.flag (session.store.find? id).isSome,
      { session with store := session.store.erase id })

/-- Carry out a command; the session stays as it was when the command is refused. -/
def step (session : Session) (command : Command) : Except Refusal Reply × Session :=
  match session.run command with
  | .ok (reply, session) => (.ok reply, session)
  | .error refusal => (.error refusal, session)

end Session
end LiveStyle
