import ReactiveDoc.Eval.Setting
import ReactiveDoc.Json.Shape
import ReactiveDoc.Ty.Encoding

namespace ReactiveDoc

/-!
# Transcripts of values

Values as JSON for other programs.  Plain JSON stands for what it can express; everything else is
an object with one key that says what it is.

* `Value.transcript` — a value, given how signals are written.
* `Value.glance`, `Value.survey` — signals by their kinds alone, or with what reading them gives.
* `Outcome.transcript` — the outcome of a signal.
* `Value.build`, `Outcome.build` — a value or an outcome from its transcript.
-/

/-! ### Failures -/

/-- The name of a failure. -/
def SignalError.name : SignalError → String
  | failed _ => "Failed"
  | unresolvedRef => "UnresolvedRef"
  | alreadyResolved => "AlreadyResolved"
  | notAReference => "NotAReference"
  | readOnly _ => "ReadOnly"
  | unreconciled => "Unreconciled"

/-- A named failure with its text. -/
def failureTranscript (name text : String) : Json :=
  .object [("error", .string name), ("message", .string text)]

/-- The failure of a signal. -/
def SignalError.transcript (e : SignalError) : Json := failureTranscript e.name e.message

/-- The name of the kind of a failed evaluation. -/
def EvalError.name : EvalError → String
  | internal _ => "Internal"
  | runtime _ => "Runtime"
  | signal _ => "Signal"

/-- The failure of an evaluation. -/
def EvalError.transcript (e : EvalError) : Json := failureTranscript e.name e.message

/-- A failure by its name; `message` is what a failed computation says. -/
def SignalError.ofName? (name : String) (message : Option String) : Option SignalError :=
  match name with
  | "Failed" => message.map failed
  | "UnresolvedRef" => some unresolvedRef
  | "AlreadyResolved" => some alreadyResolved
  | "NotAReference" => some notAReference
  | "ReadOnly" => some (readOnly .map)
  | "Unreconciled" => some unreconciled
  | _ => none

/-- The failure of a signal from its kind and message. -/
def SignalError.ofTranscript? : Json → Option SignalError
  | .object fields => do
      ofName? (← (← fields.lookup "kind").string?) ((fields.lookup "message").bind Json.string?)
  | _ => none

/-! ### Writing -/

namespace Value

section

variable {m : Type → Type} [Monad m] (form : NumberForm) (read : SignalId → m Json)

/-- A field with its key. -/
def entryTranscript (key : String) (j : Json) : Json := .array [.string key, j]

mutual

/-- A value, where `read` writes a signal. -/
def transcript : Value → m Json
  | undefined => pure (Json.variant "undef" (.bool true))
  | null => pure .null
  | boolean b => pure (.bool b)
  | number x => pure (Json.variant "n" (form.write x))
  | string s => pure (.string s)
  | array _ items => do pure (.array (← itemsTranscript items))
  | object _ fields => do pure (Json.variant "obj" (.array (← fieldsTranscript fields)))
  | function _ (.native name) => pure (Json.variant "fn" (.string name))
  | function _ (.closure ..) => pure (Json.variant "fn" .null)
  | element _ tag props children => do
      let props ← fieldsTranscript props
      pure (Json.variant "el" (.object [("tag", .string tag), ("props", .array props),
        ("children", .array (← itemsTranscript children))]))
  | signal id => read id

/-- Several values in order. -/
def itemsTranscript : List Value → m (List Json)
  | [] => pure []
  | v :: vs => do
      let j ← transcript v
      pure (j :: (← itemsTranscript vs))

/-- Fields in order, each with its key. -/
def fieldsTranscript : List (String × Value) → m (List Json)
  | [] => pure []
  | (key, v) :: fields => do
      let j ← transcript v
      pure (entryTranscript key j :: (← fieldsTranscript fields))

end

end

variable {F Φ σ : Type} (form : NumberForm)

/-- A value with signals by their kinds; nothing is read. -/
def glance (v : Value) : Signal.Action Payload F Φ σ Json :=
  v.transcript form fun id => do
    let kind := (← Signal.graph).kind id
    pure (Json.variant "sig" (.object [("kind", .string kind.name)]))

/-- A value with signals read, the signals inside what they carry to the given depth. -/
def survey (r : Signal.Rules Payload F Φ σ) : Nat → Value → Signal.Action Payload F Φ σ Json
  | 0, _ => throw .endless
  | depth + 1, v =>
      v.transcript form fun id => do
        let g ← Signal.graph
        let outcome ← r.read id
        let version := (← Signal.graph).version id
        let got ← match outcome with
          | .ok p => Json.variant "ok" <$> survey r depth p.value
          | .error e => pure (Json.variant "err" e.transcript)
        pure (Json.variant "sig" (.object [("kind", .string (g.kind id).name),
          ("label", .ofOption Json.string (g.labelName? id)), ("get", got),
          ("version", .ofNat version)]))

end Value

section

variable {F Φ σ : Type} (form : NumberForm)

mutual

/-- What a signal carries; signals inside by their kinds. -/
def Payload.transcript : Payload → Signal.Action Payload F Φ σ Json
  | .plain v => v.glance form
  | .list items => do pure (.array (← Payload.itemsTranscript items))
  | .attempt (.ok p) => do pure (Json.variant "ok" (← p.transcript))
  | .attempt (.error e) => pure (Json.variant "err" e.transcript)

/-- Several payloads in order. -/
def Payload.itemsTranscript : List Payload → Signal.Action Payload F Φ σ (List Json)
  | [] => pure []
  | p :: ps => do
      let j ← p.transcript
      pure (j :: (← Payload.itemsTranscript ps))

end

/-- The outcome of a signal. -/
def Outcome.transcript (o : Outcome Payload) : Signal.Action Payload F Φ σ Json :=
  (Payload.attempt o).transcript form

/-! ### Reading -/

/-- A computation on signals that fails on what is no transcript. -/
abbrev Build (F Φ σ : Type) := OptionT (Signal.Action Payload F Φ σ)

/-- A new identity. -/
def Build.identity : Build F Φ σ Identity :=
  OptionT.lift (Signal.newIdentities 1)

/-- A new signal. -/
def Build.signal (f : Signal.Graph Payload F Φ → SignalId × Signal.Graph Payload F Φ) :
    Build F Φ σ Value := do
  pure (.signal (← OptionT.lift (Signal.create f)))

/-- A pair of a key and something else. -/
def keyed? : Json → Option (String × Json)
  | .array [.string key, j] => some (key, j)
  | _ => none

/-- An outcome, its value built by `value`. -/
def Outcome.buildWith (value : Json → Build F Φ σ Value) : Json → Build F Φ σ (Outcome Payload)
  | .object [("ok", j)] => do pure (.ok (.plain (← value j)))
  | .object [("err", j)] => do pure (.error (← OptionT.mk (pure (SignalError.ofTranscript? j))))
  | _ => failure

namespace Value

/-- Fields, their values built by `value`. -/
def buildFields (value : Json → Build F Φ σ Value) (j : Json) : Build F Φ σ (List (String × Value)) := do
  let entries ← OptionT.mk (pure (j.list? keyed?))
  pure (Keyed.ofEntries (← entries.mapM fun (key, j) => do pure (key, ← value j)))

/-- A value from an object with one key.  `named` are the values that can be referred to. -/
def buildVariant (named : String → Option Value) (value : Json → Build F Φ σ Value)
    (key : String) (j : Json) : Build F Φ σ Value :=
  match key, j with
  | "undef", _ => pure undefined
  | "n", j => do pure (number (← OptionT.mk (pure (form.read j))))
  | "obj", j => do
      let fields ← buildFields value j
      pure (object (← Build.identity) fields)
  | "fn", .string name => do pure (function (← Build.identity) (.native name))
  | "el", .object fields => do
      let part (name : String) : Build F Φ σ Json := OptionT.mk (pure (fields.lookup name))
      let props ← buildFields value (← part "props")
      let children ← (← OptionT.mk (pure (← part "children").array?)).mapM value
      let tag ← OptionT.mk (pure (← part "tag").string?)
      pure (element (← Build.identity) tag props children)
  | "cell", j => do
      let outcome ← Outcome.buildWith value j
      Build.signal fun g => g.cell outcome
  | "const", j => do
      let outcome ← Outcome.buildWith value j
      Build.signal fun g => g.constant outcome
  | "ref", _ => Build.signal fun g => g.reference
  | "reg", .string name => OptionT.mk (pure (named name))
  | _, _ => failure

/-- A value from a transcript of at most the given depth. -/
def buildWithin (named : String → Option Value) : Nat → Json → Build F Φ σ Value
  | 0, _ => failure
  | depth + 1, j =>
      match j with
      | .null => pure null
      | .bool b => pure (boolean b)
      | .string s => pure (string s)
      | .array items => do
          let vs ← items.mapM (buildWithin named depth)
          pure (array (← Build.identity) vs)
      | .object [(key, j)] => buildVariant form named (buildWithin named depth) key j
      | j => do pure (number (← OptionT.mk (pure j.float?)))

/-- A value from its transcript.  Every container and signal in it is a new one, but `named` are
    the values that can be referred to. -/
def build (named : String → Option Value) (j : Json) : Build F Φ σ Value :=
  buildWithin form named (j.depth + 1) j

end Value

/-- An outcome from its transcript. -/
def Outcome.build (named : String → Option Value) (j : Json) : Build F Φ σ (Outcome Payload) :=
  Outcome.buildWith (Value.build form named) j

end

end ReactiveDoc
