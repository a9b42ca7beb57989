import LocalRecovery.Recovery.Basic

set_option autoImplicit false

/-! # Redirecting accesses

A body is walked through from its first instruction to its last. At an access to a candidate the
walk makes sure that the method has a local variable for it (`Walk.slotFor`) and turns a static
access into the same access to that variable (`Walk.step`). An access through an object keeps its
form, but it counts and it gets a variable like the others.

The walk stops where no variable can be created any more. What it did until then stands.
-/

namespace LocalRecovery

/-! ## The journal of a walk -/

namespace Walk

/-- What is recorded about a new variable whose type is not known. -/
def unknownEvent (method : Token) (c : Candidate) : Event :=
  { kind := .warning
    method := some method
    message := "Unknown type for field " ++ c.name ++ " " ++ c.token.tag
    pass := some Recovery.passName }

/-- What is logged about a new variable whose type is not known. -/
def unknownMessage (method : Token) (c : Candidate) (slot : UInt16) : Message :=
  { level := .warn
    text := "Field " ++ c.name ++ " " ++ c.token.tag ++ " has no resolvable type, V_"
      ++ toString slot.toNat ++ " in " ++ method.tag ++ " uses a placeholder" }

/-- What is recorded about a new variable. -/
def localEvent (method : Token) (c : Candidate) (slot : UInt16) : Event :=
  { kind := .localCreated
    method := some method
    message := "V_" ++ toString slot.toNat ++ " (" ++ c.signature.text ++ ") replaces field "
      ++ c.name
    pass := some Recovery.passName }

/-- The journal of a new variable. -/
def localJournal (method : Token) (c : Candidate) (slot : UInt16) : Journal :=
  if c.signature.isUnknown then
    { events := [unknownEvent method c, localEvent method c slot]
      messages := [unknownMessage method c slot] }
  else { events := [localEvent method c slot] }

/-- What is logged about an access through an object, which keeps its form. -/
def keptMessage (method : Token) (index : Nat) (c : Candidate) (opcode : Opcode) : Message :=
  { level := .debug
    text := "Leaving " ++ opcode.mnemonic ++ " of candidate " ++ c.token.tag ++ " in " ++ method.tag
      ++ " at IL_" ++ Text.decimal 4 index }

/-- What is recorded about a redirected access. -/
def redirectEvent (method : Token) (index : Nat) (c : Candidate) (before after : Opcode)
    (slot : UInt16) : Event :=
  { kind := .accessRedirected
    method := some method
    location := some index
    message := before.mnemonic ++ " " ++ c.token.tag ++ " -> " ++ after.mnemonic ++ " V_"
      ++ toString slot.toNat
    pass := some Recovery.passName }

end Walk

/-! ## The walk through one body -/

/-- What changes during the walk. -/
structure Walk where
  bindings : List Binding
  locals : List LocalVariable
  redirects : Nat
  changed : Bool := false
  deriving DecidableEq

namespace Walk

/-- The local variable for a candidate in a method. It is declared at the first access. -/
def slotFor (method : Token) (c : Candidate) (w : Walk) :
    Except Error (UInt16 × Walk × Journal) :=
  match Binding.find? w.bindings c.token method with
  | some slot => .ok (slot, w, {})
  | none =>
      match Body.freshSlot? w.locals with
      | none => .error (.localLimit method)
      | some slot =>
          let w :=
            { w with
              bindings := ⟨c.token, method, slot⟩ :: w.bindings
              locals := w.locals ++ [{ signature := c.signature }]
              changed := true }
          .ok (slot, w, localJournal method c slot)

/-- What dealing with one instruction leads to. -/
structure Move where
  instruction : Instruction
  walk : Walk
  journal : Journal := {}

/-- Deals with an access of a candidate by the instruction at `index`. -/
def redirect (config : RecoveryConfig) (method : Token) (index : Nat) (i : Instruction)
    (c : Candidate) (w : Walk) : Except Error Move :=
  match slotFor method c w with
  | .error e => .error e
  | .ok (slot, w, created) =>
      let w := { w with redirects := w.redirects + 1 }
      match i.opcode.staticAccess? with
      | none =>
          let kept : Journal := { messages := [keptMessage method index c i.opcode] }
          .ok { instruction := i, walk := w, journal := created ++ kept }
      | some kind =>
          let opcode := Opcode.localAccess kind
          match Instruction.build opcode (.localSlot slot) with
          | .error e => .error e
          | .ok instruction =>
              let redirected : Journal :=
                if config.recordAccesses then
                  { events := [redirectEvent method index c i.opcode opcode slot] }
                else {}
              .ok { instruction, walk := { w with changed := true },
                    journal := created ++ redirected }

/-- Deals with the instruction at `index`. -/
def step (config : RecoveryConfig) (candidates : List Candidate) (method : Token) (index : Nat)
    (i : Instruction) (w : Walk) : Except Error Move :=
  match i.fieldToken?.bind (Candidate.find? candidates) with
  | none => .ok { instruction := i, walk := w }
  | some c => redirect config method index i c w

/-- The end of a walk. After an error the code is new up to the instruction at fault. -/
structure End where
  code : Code
  walk : Walk
  error : Option Error := none
  journal : Journal := {}

/-- Walks through the instructions from `index` on. -/
def run (config : RecoveryConfig) (candidates : List Candidate) (method : Token) :
    Nat → Code → Walk → End
  | _, [], w => { code := [], walk := w }
  | index, i :: rest, w =>
      match step config candidates method index i w with
      | .error e => { code := i :: rest, walk := w, error := some e }
      | .ok move =>
          let tail := run config candidates method (index + 1) rest move.walk
          { tail with
            code := move.instruction :: tail.code
            journal := move.journal ++ tail.journal }

end Walk

/-! ## Bodies, methods and types -/

/-- What is left after redirecting accesses within a part of a module: whether something changed,
the recovery, the part and the journal. -/
structure Redirection (α : Type) where
  result : Except Error Bool
  pass : Recovery
  part : α
  journal : Journal := {}

namespace Recovery

/-- Redirects the accesses within a body. A body that changed gets the shortest spelling, unless the
walk broke off or that is not wanted. -/
def redirectBody (p : Recovery) (method : Token) (b : Body) : Redirection Body :=
  let stop := Walk.run p.config (p.candidates.getD []) method 0 b.code
    { bindings := p.bindings, locals := b.locals, redirects := p.redirects }
  let body := { b with locals := stop.walk.locals, code := stop.code }
  let pass := { p with bindings := stop.walk.bindings, redirects := stop.walk.redirects }
  match stop.error with
  | some e => { result := .error e, pass, part := body, journal := stop.journal }
  | none =>
      { result := .ok stop.walk.changed
        pass
        part := if stop.walk.changed && p.config.shrinkCode then body.shrink else body
        journal := stop.journal }

/-- Redirects the accesses within a method. -/
def redirectMethod (p : Recovery) (m : Method) : Redirection Method :=
  match m.body with
  | none => { result := .ok false, pass := p, part := m }
  | some b =>
      let r := p.redirectBody m.token b
      { result := r.result, pass := r.pass, part := { m with body := some r.part },
        journal := r.journal }

/-- Redirects the accesses within methods, one after the other, up to the first error. -/
def redirectMethods (p : Recovery) : List Method → Redirection (List Method)
  | [] => { result := .ok false, pass := p, part := [] }
  | m :: rest =>
      let first := p.redirectMethod m
      match first.result with
      | .error e =>
          { result := .error e, pass := first.pass, part := first.part :: rest,
            journal := first.journal }
      | .ok changed =>
          let others := first.pass.redirectMethods rest
          { result := others.result.map (changed || ·)
            pass := others.pass
            part := first.part :: others.part
            journal := first.journal ++ others.journal }

end Recovery

end LocalRecovery
