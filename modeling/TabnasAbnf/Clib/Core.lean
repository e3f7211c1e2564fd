/-
The C library, one call at a time: the buffers a caller passes, the documents it answers with, how an error is
told from a rejection, and the table of handles. Every call is answered with one JSON document.
-/
import TabnasAbnf.Render.Spec
import TabnasAbnf.Base.Linear

namespace TabnasAbnf.Clib

open TabnasAbnf.Base TabnasAbnf.Render

/-! ## Buffers -/

/-- A Go string. -/
abbrev Bytes := List UInt8

/-- A pointer and a length: the memory from the pointer on, or NULL. -/
structure Buffer where
  mem : Option Bytes
  len : Int

def goBytes (b : Buffer) : Option Bytes :=
  if b.len < 0 then none
  else
    match b.mem with
    | none => if b.len = 0 then some [] else none
    | some mem => some (mem.take b.len.toNat)

/-! ## Errors -/

/-- What a parse error was caused by, as `encoding/json` writes it. -/
inductive Cause
  | absent
  | encoded (doc : Json)
  | unencodable

/-- `AbnfParseError`: the only error `ParseAbnf` returns. -/
structure ParseError where
  message : Text
  line : Int := 0
  column : Int := 0
  cause : Cause := .absent

def Cause.marshal : Cause → Option Json
  | .absent => some .null
  | .encoded doc => some doc
  | .unencodable => none

def ParseError.marshal (err : ParseError) : Option Json :=
  err.cause.marshal.map fun cause => .obj [("Message".toList, .str err.message), ("Line".toList, .num err.line),
    ("Column".toList, .num err.column), ("Cause".toList, cause)]

/-- What a panic is recovered with. -/
inductive PanicValue
  | error (message : Text)
  | text (s : Text)
  | other

/-- `panicErr.Error`. -/
def PanicValue.message : PanicValue → Text
  | .error message => message
  | .text s => s
  | .other => "internal panic".toList

/-- How `safeParse` ends. -/
inductive Outcome
  | accepted
  | failed (err : ParseError)
  | panicked (v : PanicValue)

def firstLine (s : Text) : Text := s.takeWhile (· ≠ '\n')

def errPayload (err : ParseError) : Json :=
  match err.marshal with
  | some (.obj (f :: fields)) => .obj (f :: fields)
  | _ => .obj [("message".toList, .str (firstLine err.message))]

/-- The `code` a document is read with: the last field of that name in any case; none where one is no string. -/
def codeField (doc : Json) : Option Text :=
  let values := (abnfRec (some doc)).filter fun f => f.1.map Char.toLower = "code".toList
  if values.all fun f => f.2.isString || f.2 matches .null then
    some ((values.filter fun f => f.2.isString).getLast?.elim [] fun f => abnfStr (some f.2))
  else none

def isInternal (err : ParseError) : Bool :=
  match err.marshal with
  | some doc => codeField doc = some "internal".toList
  | none => false

/-! ## Replies -/

inductive Code
  | usage | grammar | handle | internal
  deriving DecidableEq, Repr

def Code.text : Code → Text
  | .usage => "usage".toList
  | .grammar => "grammar".toList
  | .handle => "handle".toList
  | .internal => "internal".toList

def libName : Text := "libtabnasabnf".toList

/-- What a call is answered with. -/
inductive Reply
  | failure (code : Code) (message : Text)
  | version
  | handle (id : Int64)
  | accept
  | reject (payload : Json)
  | released

/-- The document of a reply, its keys sorted as `encoding/json` sorts a map's. Freeing a handle answers none. -/
def Reply.doc : Reply → Option Json
  | .failure code message => some <| .obj [("error".toList, .obj [("code".toList, .str code.text),
      ("message".toList, .str message)]), ("ok".toList, .bool false)]
  | .version =>
    some <| .obj [("format".toList, .str "abnf".toList), ("lib".toList, .str libName), ("ok".toList, .bool true),
      ("template".toList, .str "v6".toList)]
  | .handle id => some <| .obj [("handle".toList, .num id.toInt), ("ok".toList, .bool true)]
  | .accept => some <| .obj [("accept".toList, .bool true), ("ok".toList, .bool true)]
  | .reject payload =>
    some <| .obj [("accept".toList, .bool false), ("error".toList, payload), ("ok".toList, .bool true)]
  | .released => none

/-- How a parse is answered: a panic and an error of code `internal` are failed calls, another error is an answer. -/
def Outcome.reply : Outcome → Reply
  | .accepted => .accept
  | .panicked v => .failure .internal (firstLine v.message)
  | .failed err => if isInternal err then .failure .internal (firstLine err.message) else .reject (errPayload err)

/-- A parse error is written without a field of that name, so it never counts as the engine's failure, nor does one
that the engine has failed with and the parse error was caused by. -/
@[simp] theorem isInternal_parseError (err : ParseError) : isInternal err = false := by
  rcases hcause : err.cause.marshal with _ | cause
  · rw [isInternal, ParseError.marshal, hcause]
    rfl
  · have hcode : err.marshal.bind codeField = some [] := by
      rw [ParseError.marshal, hcause, Option.map_some, Option.bind_some, codeField]
      simp [abnfRec]
    rcases hdoc : err.marshal with _ | doc
    · rw [isInternal, hdoc]
    · rw [hdoc, Option.bind_some] at hcode
      rw [isInternal, hdoc]
      simp [hcode]

/-- Only a panic makes a parse a failed call. -/
theorem reply_failed (err : ParseError) : (Outcome.failed err).reply = .reject (errPayload err) := by
  rw [Outcome.reply, isInternal_parseError, if_neg (by simp)]

def unknownHandle : Reply := .failure .handle "no parser is loaded under that handle".toList

/-- Why `loadGrammar` refuses its options, if it does. -/
def optionsRefusal (unmarshal : Bytes → Option Json) (opts : Bytes) : Option Reply :=
  if opts = [] then none
  else
    match unmarshal opts with
    | some (.obj []) => none
    | some (.obj (_ :: _)) => some (.failure .usage (libName ++ " accepts no options yet; pass NULL (or {})".toList))
    | _ => some (.failure .usage "options must be a JSON object".toList)

/-! ## Calls -/

/-- What a caller calls. -/
inductive Op
  | version
  | grammar (opts : Buffer)
  | parse (handle : Int64) (src : Buffer)
  | grammarFree (handle : Int64)

/-- What a call does once its arguments are read. -/
inductive Task
  | answer (r : Reply)
  | load
  | parse (handle : Int64) (src : Bytes)
  | free (handle : Int64)

def Op.task (unmarshal : Bytes → Option Json) : Op → Task
  | .version => .answer .version
  | .grammar opts =>
    match goBytes opts with
    | none => .answer (.failure .usage "options pointer or length is invalid".toList)
    | some text =>
      match optionsRefusal unmarshal text with
      | some r => .answer r
      | none => .load
  | .parse handle src =>
    match goBytes src with
    | none => .answer (.failure .usage "source pointer or length is invalid".toList)
    | some text => .parse handle text
  | .grammarFree handle => .free handle

/-! ## The table of handles -/

/-- The last handle given, and the handles a parser is loaded under. -/
structure Table where
  nextID : Int64 := 0
  loaded : Int64 → Bool := fun _ => false

def Table.run (answer : Bytes → Outcome) (tb : Table) : Task → Table × Reply
  | .answer r => (tb, r)
  | .load =>
    ({ nextID := tb.nextID + 1, loaded := Function.update tb.loaded (tb.nextID + 1) true }, .handle (tb.nextID + 1))
  | .parse handle src => (tb, if tb.loaded handle then (answer src).reply else unknownHandle)
  | .free handle => ({ tb with loaded := Function.update tb.loaded handle false }, .released)

/-- The library as its callers may think of it: one call at a time, each done at once. -/
def library (unmarshal : Bytes → Option Json) (answer : Bytes → Outcome) : Object Table Op Reply where
  init := {}
  apply op tb := tb.run answer (op.task unmarshal)

end TabnasAbnf.Clib
