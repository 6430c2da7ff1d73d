import ReactiveDoc.Document.Checking
import ReactiveDoc.Transcript.Syntax

namespace ReactiveDoc

/-!
# Transcripts of checks

What a check found, as JSON for other programs.  Unlike a summary for people it leaves nothing
out, and texts stand beside what they describe.

* `Interface.transcript`, `Interface.ofTranscript?` — an interface, written and read.
* `CheckedDocument.transcript` — everything that is found out about a document.
-/

/-- An error with its text. -/
def TypeError.transcript (e : TypeError) : Json :=
  .object [("kind", e.kind.toJson), ("span", .ofOption Span.toJson e.span),
    ("suggestions", .array (e.hints.map .string)), ("text", .string e.message)]

/-- A success or an error. -/
def resultTranscript {α : Type} (write : α → Json) : Except TypeError α → Json
  | .ok a => Json.variant "ok" (write a)
  | .error e => Json.variant "err" e.transcript

namespace Typing

/-- The mutability of a binding; `null` if it cannot be assigned to. -/
def mutabilityJson (m? : Option Mutability) : Json := .ofOption (fun m => .string m.label) m?

/-- A typing with the text of its type. -/
def transcript (form : NumberForm) (t : Typing) : Json :=
  .object [("ty", t.ty.toJson form), ("dynamic", .bool t.dynamic),
    ("mutable", mutabilityJson t.mutable?), ("text", .string t.ty.text)]

/-- A typing from its transcript; what is not said does not change over time. -/
def ofTranscript? (form : NumberForm) (j : Json) : Option Typing := do
  let [some ty, dynamic, mutability] ← Json.entries?
    [("ty", .required), ("dynamic", .defaulted), ("mutable", .defaulted)] j | none
  some {
    ty := ← Ty.ofJson? form ty
    dynamic := ← Json.entryOr false Json.bool? dynamic
    mutable? := ← Json.entryOr none (Json.optional? fun j => j.string?.bind Mutability.ofLabel?)
      mutability }

end Typing

/-- A field's type and what reading it adds. -/
def Check.Access.transcript (form : NumberForm) (a : Check.Access) : Json :=
  .object [("ty", a.ty.toJson form), ("dynamic", .bool a.dynamic),
    ("mutable", Typing.mutabilityJson a.mutable?)]

/-- How often a cache was asked, and with what success. -/
def CacheCounts.transcript (c : CacheCounts) : Json :=
  .object [("hits", .ofNat c.hits), ("misses", .ofNat c.misses), ("evictions", .ofNat c.evictions)]

namespace Interface

/-- An interface. -/
def transcript (form : NumberForm) : Interface → Json := resultTranscript (Typing.transcript form)

/-- An interface from its transcript; a typing may stand for itself. -/
def ofTranscript? (form : NumberForm) : Json → Option Interface
  | .object [("ok", j)] => (Typing.ofTranscript? form j).map .ok
  | .object [("err", j)] => (TypeError.ofJson? j).map .error
  | j => (Typing.ofTranscript? form j).map .ok

end Interface

/-- The interfaces of all nodes in order, `null` where there is none. -/
def InterfaceMap.transcript (form : NumberForm) (m : InterfaceMap) : Json :=
  .array (m.slots.toList.map (.ofOption (Interface.transcript form)))

/-- A group of fragments. -/
def Group.transcript (g : Group) : Json :=
  .object [("members", .array (g.members.map .ofNat)), ("cyclic", .bool g.cyclic),
    ("legal", .bool g.legal), ("chain", .array (g.chain.map .string))]

/-- Everything that is found out about a document, by name. -/
def CheckedDocument.transcript (form : NumberForm) (c : CheckedDocument) : List (String × Json) :=
  [("interfaces", c.interfaces.transcript form), ("exports", c.exports.toJson form),
    ("exports_text", .string c.exports.text), ("errors", .array (c.errors.map TypeError.transcript)),
    ("dropped", .ofNat c.dropped), ("has_errors", .bool c.hasErrors),
    ("groups", .array (c.groups.map Group.transcript))]

end ReactiveDoc
