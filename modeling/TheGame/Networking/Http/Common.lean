import TheGame.Data.UnorderedMap
import TheGame.Networking.Common

/-!
# Requests, responses and methods

`common.hpp` and `beast_utils.hpp`, with as much of Beast's `request` and `response` as the
server uses. The `Connection` header is a list of tokens, because `keep_alive()` and
`keep_alive(bool)` of a message read and rewrite single tokens of it, depending on the version.
-/

namespace TheGame

abbrev Path := Bytes
abbrev ParamKey := Bytes
abbrev ParamValue := Bytes

/-- `Params`. -/
abbrev Params := UnorderedMap ParamKey ParamValue

inductive HttpMethod
  | UNKNOWN | GET | POST | PUT | DELETE | PATCH
deriving DecidableEq, Repr

/-- `http::verb` -/
inductive Verb
  | unknown | delete_ | get | head | post | put | connect | options | trace | copy | lock | mkcol
  | move | propfind | proppatch | search | unlock | bind | rebind | unbind | acl | report
  | mkactivity | checkout | merge | msearch | notify | subscribe | unsubscribe | patch | purge
  | mkcalendar | link | unlink
deriving DecidableEq, Repr

/-- The array `map` of `ConvertVerbBeast`. -/
def verbMap : List (Verb × HttpMethod) :=
  [(.get, .GET), (.post, .POST), (.put, .PUT), (.delete_, .DELETE), (.patch, .PATCH),
    (.unknown, .UNKNOWN)]

/-- `ConvertVerbBeast<http::verb>`. -/
def convertVerbBeast (value : Verb) : HttpMethod :=
  match verbMap.find? (·.1 = value) with
  | some pair => pair.2
  | none => .UNKNOWN

/-- A parsed request. `isUpgrade` and `keepAlive` are the answers of
`beast::websocket::is_upgrade(request)` and `request.keep_alive()`, `key` is the header field
`Sec-WebSocket-Key`. -/
structure Request where
  method : Verb
  target : Bytes
  version : Nat
  keepAlive : Bool
  isUpgrade : Bool
  key : Bytes := []
  body : Bytes := []
deriving DecidableEq

/-- A token of the `Connection` header. -/
inductive ConnectionToken
  | close
  | keepAlive
  | other (name : Bytes)
deriving DecidableEq

/-- `http::response<http::string_body>`; `fields` are the header fields except `Connection` and
`Content-Length`. -/
structure Response where
  version : Nat
  result : Nat
  connection : List ConnectionToken := []
  fields : List (Bytes × Bytes) := []
  contentLength : Option Nat := none
  body : Bytes := []
deriving DecidableEq

namespace Response

/-- The getter `keep_alive()`. -/
def keepAlive (r : Response) : Bool :=
  if r.version < 11 then r.connection.contains .keepAlive else !r.connection.contains .close

/-- The setter `keep_alive(value)`. -/
def setKeepAlive (r : Response) (value : Bool) : Response :=
  let without (ts : List ConnectionToken) := r.connection.filter (!ts.contains ·)
  let add (t : ConnectionToken) (ts : List ConnectionToken) :=
    if ts.contains t then ts else ts ++ [t]
  { r with connection :=
      if r.version < 11 then
        if value then add .keepAlive (without [.close]) else without [.close, .keepAlive]
      else
        if value then without [.close, .keepAlive] else add .close (without [.keepAlive]) }

/-- `set(name, value)`: replaces every field of that name. -/
def set (r : Response) (name value : Bytes) : Response :=
  { r with fields := r.fields.filter (·.1 ≠ name) ++ [(name, value)] }

/-- `prepare_payload()`. -/
def preparePayload (r : Response) : Response := { r with contentLength := some r.body.length }

/-- What is left of a response after a move. -/
def movedFrom (r : Response) : Response := { version := r.version, result := r.result }

@[simp] theorem keepAlive_setKeepAlive (r : Response) (value : Bool) :
    (r.setKeepAlive value).keepAlive = value := by
  unfold keepAlive setKeepAlive
  dsimp only
  split <;> cases value <;> simp <;> split <;> simp_all

@[simp] theorem keepAlive_set (r : Response) (name value : Bytes) :
    (r.set name value).keepAlive = r.keepAlive := rfl

@[simp] theorem keepAlive_preparePayload (r : Response) :
    r.preparePayload.keepAlive = r.keepAlive := rfl

end Response

end TheGame
