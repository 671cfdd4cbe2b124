import ScopedLisp.Term.Basic
import ScopedLisp.Text.Quoted

/-!
# Printing terms

* `Term.render`: the form that a session answers with, which can be read back as source text;
* `Term.inspect`: the form of the journal, which tells a symbol from a word and a list from a call;
* `Term.display`: the form inside messages, where names and texts stand bare.
-/

namespace ScopedLisp

/-- Words in parentheses, with one space between them. -/
def parenthesized (words : List String) : String := "(" ++ " ".intercalate words ++ ")"

namespace Term

/-- A list of parameters. -/
def renderParams (params : List Symbol) : String := parenthesized (params.map Symbol.name)

mutual

/-- The answer form of a term. -/
def render : Term → String
  | bool true => "true"
  | bool false => "false"
  | int n => toString n
  | symbol s => s.name
  | list items => parenthesized (renderAll items)
  | builtin _ => "<builtin>"
  | closure params body _ => parenthesized ["fn", renderParams params, body.render]
  | named name params body _ =>
    parenthesized ["defn", name.name, renderParams params, body.render]
  | absent => "None"
  | text s => s

/-- The answer forms of the terms of a list. -/
def renderAll : List Term → List String
  | [] => []
  | t :: ts => t.render :: renderAll ts

end

theorem renderAll_eq_map (ts : List Term) : renderAll ts = ts.map render := by
  induction ts with
  | nil => rfl
  | cons t ts ih => rw [renderAll, ih, List.map_cons]

mutual

/-- The journal form of a term. -/
def inspect : Term → String
  | bool true => "True"
  | bool false => "False"
  | symbol s => "Symbol(" ++ Text.quote s.name ++ ")"
  | list items => "[" ++ ", ".intercalate (inspectAll items) ++ "]"
  | builtin b => "Builtin(" ++ Text.quote b.name ++ ")"
  | text s => Text.quote s
  | t => t.render

/-- The journal forms of the terms of a list. -/
def inspectAll : List Term → List String
  | [] => []
  | t :: ts => t.inspect :: inspectAll ts

end

/-- The form of a term inside a message. -/
def display : Term → String
  | symbol s => s.name
  | builtin b => (builtin b).render
  | text s => s
  | t => t.inspect

end Term

end ScopedLisp
