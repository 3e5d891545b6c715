import ElioP2P.Library.Lines
import ElioP2P.Library.Maps
import ElioP2P.Library.Numerals
import Mathlib.Data.List.DropRight

/-!
# The HTTP client of the control plane

How `SimpleHttpClient::http_request` of `src/control/client.cpp` reads the
response once its request is sent.  What the server sends is given by the calls
of `recv` that return something; the call behind them returns nothing.

A `size_t` is a natural number where nothing is added to it that the server
chooses.
-/

namespace ElioP2P.Control.SimpleHttpClient

open ElioP2P.Library

/-- The size of the buffer of `recv`. -/
abbrev recvLimit : Nat := 4096

def npos : Nat := 2 ^ 64 - 1

def wrap (n : Nat) : Nat := n % 2 ^ 64

/-- `to_lower` -/
def lower (s : Bytes) : Bytes := s.map toLower

def isBlank (b : UInt8) : Bool := b == 32 || b == 9

def trim (s : Bytes) : Bytes := (s.dropWhile isBlank).rdropWhile isBlank

/-! ## The header block -/

/-- The status code, or `none` if `std::stoi` throws. -/
def statusCode (response : Bytes) : Option Int :=
  let lineEnd := (find response crlf 0).getD npos
  match find response (ascii " ") 0 with
  | none => some 500
  | some pos =>
      if pos < lineEnd then stoi (substr response (pos + 1) (lineEnd - pos - 1)) else some 500

abbrev Headers := AList fun _ : Bytes => Bytes

/-- A line without a colon is skipped. -/
def addHeader (headers : Headers) (line : Bytes) : Headers :=
  match find line (ascii ":") 0 with
  | none => headers
  | some colon =>
      headers.insert (lower (trim (substr line 0 colon))) (trim (line.drop (colon + 1)))

def headerLineEnd (response : Bytes) (headerEnd hpos : Nat) : Nat :=
  match find response crlf hpos with
  | none => headerEnd
  | some hend => if headerEnd < hend then headerEnd else hend

theorem le_headerLineEnd {response : Bytes} {headerEnd hpos : Nat} (h : hpos < headerEnd) :
    hpos ≤ headerLineEnd response headerEnd hpos := by
  unfold headerLineEnd
  split
  · exact Nat.le_of_lt h
  · rename_i hend hfind
    have hbounds := find_bounds hfind
    split <;> omega

def readHeaders (response : Bytes) (headerEnd hpos : Nat) (headers : Headers) : Headers :=
  if h : hpos < headerEnd then
    let hend := headerLineEnd response headerEnd hpos
    have : hpos ≤ hend := le_headerLineEnd h
    readHeaders response headerEnd (hend + 2)
      (addHeader headers (substr response hpos (hend - hpos)))
  else headers
termination_by headerEnd - hpos

/-- `resp_headers` -/
def responseHeaders (response : Bytes) (headerEnd : Nat) : Headers :=
  let lineEnd := (find response crlf 0).getD npos
  readHeaders response headerEnd (if lineEnd = npos then headerEnd else lineEnd + 2) ∅

def isChunked (headers : Headers) : Bool :=
  match headers.lookup (ascii "transfer-encoding") with
  | none => false
  | some value => (find (lower value) (ascii "chunked") 0).isSome

/-! ## The body -/

/-- The size in the line from `pos` to `eol`, without its extensions; `none` if
`std::stoul` throws. -/
def chunkSize (response : Bytes) (pos eol : Nat) : Option Nat :=
  let sizeField := substr response pos (eol - pos)
  let sizeField :=
    match find sizeField (ascii ";") 0 with
    | none => sizeField
    | some semi => substr sizeField 0 semi
  stoulHex (trim sizeField)

/-- The body that the chunks from `pos` on add to `body`, or what is wrong with
them; `none` if there are at least `fuel` chunks. -/
def decodeChunks : Nat → Inflow recvLimit → Nat → Bytes → Option (Except Bytes Bytes)
  | 0, _, _, _ => none
  | fuel + 1, c, pos, body =>
      match c.await fun response => find response crlf pos with
      | (none, _) => some (.error (ascii "Invalid response: truncated chunk header"))
      | (some eol, c) =>
          match chunkSize c.buffer pos eol with
          | none => some (.error (ascii "Invalid response: malformed chunk size"))
          | some size =>
              let pos := eol + 2
              if size = 0 then some (.ok body)
              else
                match c.await (atLeast (wrap (pos + size + 2))) with
                | (none, _) => some (.error (ascii "Invalid response: truncated chunk data"))
                | (some (), c) =>
                    decodeChunks fuel c (wrap (pos + size + 2))
                      (body ++ substr c.buffer pos size)

/-- What `http_request` makes of a response. -/
inductive ParsedResponse where
  | failed (message : Bytes)
  | received (status : Int) (body : Bytes)
  deriving DecidableEq

namespace ParsedResponse

def ofDecoded (status : Int) : Except Bytes Bytes → ParsedResponse
  | .error message => failed message
  | .ok body => received status body

def toPair : ParsedResponse → Int × Bytes
  | failed message => (500, message)
  | received status body => (status, body)

end ParsedResponse

def readSized (c : Inflow recvLimit) (status : Int) (bodyStart : Nat) (value : Bytes) :
    ParsedResponse :=
  match stoull value with
  | none => .failed (ascii "Invalid response: malformed Content-Length")
  | some contentLength =>
      match c.await (atLeast (wrap (bodyStart + contentLength))) with
      | (none, _) => .failed (ascii "Invalid response: truncated body")
      | (some (), c) => .received status (substr c.buffer bodyStart contentLength)

def readToEnd (c : Inflow recvLimit) (status : Int) (bodyStart : Nat) : ParsedResponse :=
  .received status ((c.await fun _ => (none : Option Unit)).2.buffer.drop bodyStart)

/-- The body behind the header block, framed as its headers say. -/
def readBody (fuel : Nat) (c : Inflow recvLimit) (status : Int) (headerEnd : Nat) :
    Option ParsedResponse :=
  let headers := responseHeaders c.buffer headerEnd
  let bodyStart := headerEnd + 4
  if isChunked headers then
    (decodeChunks fuel c bodyStart []).map (ParsedResponse.ofDecoded status)
  else
    match headers.lookup (ascii "content-length") with
    | some value => some (readSized c status bodyStart value)
    | none => some (readToEnd c status bodyStart)

/-- The response parsing of `http_request`; `none` if it needs `fuel` chunks or
more. -/
def parseResponse (fuel : Nat) (pieces : List (Piece recvLimit)) : Option ParsedResponse :=
  match Inflow.await (fun response => find response (crlf ++ crlf) 0) ⟨[], pieces⟩ with
  | (none, _) => some (.failed (ascii "Invalid response: incomplete headers"))
  | (some headerEnd, c) =>
      match statusCode c.buffer with
      | none => some (.failed (ascii "Invalid response: malformed status line"))
      | some status => readBody fuel c status headerEnd

def httpRequest (fuel : Nat) (pieces : List (Piece recvLimit)) : Option (Int × Bytes) :=
  (parseResponse fuel pieces).map ParsedResponse.toPair

end ElioP2P.Control.SimpleHttpClient
