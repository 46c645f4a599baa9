import CoreLooper.TextSeparator

/-!
# HttpTool and the two readers of a request line

Both `HttpRequest::ParseHeader` and `HttpHeader::Parse` leave the url to `ParseUrlParam`, which
takes the parameters apart and turns `%xx` into bytes. The first one does so before, too. Where
`sscanf` fails, the byte it should give is not set: it is a parameter of the model, which depends
on the text that was to be read. The headers behind the first line, and a body, are left out.
-/
namespace CoreLooper.Http
open CStrings

/-- A map from names to values. -/
abbrev NameValue := Bytes → Option Bytes

namespace NameValue

def empty : NameValue := fun _ => none

/-- `Set` with C strings. -/
def set (params : NameValue) (key value : Bytes) : NameValue :=
  if key = [] then params else Function.update params key (some value)

end NameValue

/-- The text before the first of a byte, and the text behind it. -/
def cutAt (c : UInt8) (text : Bytes) : Bytes × Option Bytes :=
  match text.dropWhile (· ≠ c) with
  | [] => (text, none)
  | _ :: rest => (text.takeWhile (· ≠ c), some rest)

/-- `ExtractSubString`: pieces that are empty are passed over. -/
def extractSubString (chSep : UInt8) : Bytes → Bytes → List Bytes
  | piece, [] => if piece = [] then [] else [piece]
  | piece, c :: text =>
      if c = chSep then (if piece = [] then [] else [piece]) ++ extractSubString chSep [] text
      else extractSubString chSep (piece ++ [c]) text

/-- `StringTool::Replace`: the search goes on behind what was put in. -/
def replaceLoop (src dst : Bytes) : ℕ → Bytes → Bytes
  | 0, text => text
  | fuel + 1, text =>
      match strstr text src with
      | none => text
      | some pos => text.take pos ++ dst ++ replaceLoop src dst fuel (text.drop (pos + src.length))

def replace (text src dst : Bytes) : Bytes :=
  if src = [] then text else replaceLoop src dst text.length text

def hexValue (c : UInt8) : Option ℕ :=
  if 48 ≤ c ∧ c ≤ 57 then some (c.toNat - 48)
  else if 65 ≤ c ∧ c ≤ 70 then some (c.toNat - 55)
  else if 97 ≤ c ∧ c ≤ 102 then some (c.toNat - 87)
  else none

/-- One or two digits, as many as the width has room for. -/
def hexDigits (width : ℕ) : Bytes → Option ℕ
  | [] => none
  | c :: text =>
      if width = 0 then none
      else
        match hexValue c with
        | none => none
        | some a =>
            match text.head?.bind hexValue with
            | some b => if width = 1 then some a else some (a * 16 + b)
            | none => some a

/-- `sscanf` with `%02x`: white space is passed over, a sign takes one of the two places, and a
prefix `0x` leaves none for digits. -/
def scanHex (text : Bytes) : Option UInt8 :=
  let text := text.dropWhile isspace
  match text with
  | 45 :: rest => (hexDigits 1 rest).map fun n => (256 - n).toUInt8
  | 43 :: rest => (hexDigits 1 rest).map Nat.toUInt8
  | 48 :: 120 :: _ => none
  | 48 :: 88 :: _ => none
  | text => (hexDigits 2 text).map Nat.toUInt8

/-- `EscapeUrlString`, up to the end of what it writes. Two bytes behind a `%` are passed over
whatever they are. -/
def unescape (junk : Bytes → UInt8) : Bytes → Bytes
  | [] => []
  | [c] => [if c = 37 then (scanHex []).getD (junk []) else c]
  | [c, a] =>
      if c = 37 then [(scanHex [a]).getD (junk [a])] else c :: unescape junk [a]
  | c :: a :: b :: rest =>
      if c = 37 then (scanHex (a :: b :: rest)).getD (junk (a :: b :: rest)) :: unescape junk rest
      else c :: unescape junk (a :: b :: rest)

/-- The C string it leaves. -/
def escapeUrlString (junk : Bytes → UInt8) (psz : Bytes) : Bytes := cstr (unescape junk psz)

/-- One `name=value` goes into the parameters. -/
def setParam (junk : Bytes → UInt8) (params : NameValue) (line : Bytes) : NameValue :=
  match cutAt 61 line with
  | (_, none) => params
  | (name, some value) => params.set name (escapeUrlString junk (value.take 4095))

/-- The name of the file, and the parameters behind the question mark. -/
def parseUrlParam (junk : Bytes → UInt8) (pszUrl : Bytes) (params : NameValue) :
    Bytes × NameValue :=
  let szUri := escapeUrlString junk ((cutAt 63 pszUrl).1.take 1023)
  let uri := replace szUri (ascii "../") []
  match (cutAt 63 pszUrl).2 with
  | none => (uri, params)
  | some szParams => (uri, (extractSubString 38 [] szParams).foldl (setParam junk) params)

structure HeaderInfo where
  m_httpMethod : Bytes
  mUrl : Bytes
  m_uri : Bytes
  m_urlParam : NameValue

def isSupportHttpMethod (pszCmd : Bytes) : Bool := pszCmd = ascii "GET" ∨ pszCmd = ascii "POST"

/-- The text before the last of a byte. -/
def beforeLast (c : UInt8) (text : Bytes) : Option Bytes :=
  match text.reverse.dropWhile (· ≠ c) with
  | [] => none
  | _ :: rest => some rest.reverse

/-- `ParseHeader`, as far as it goes for the first line. -/
def parseHeader (junk : Bytes → UInt8) (request : Bytes) : Option HeaderInfo :=
  match strstr request (ascii "\r\n") with
  | none => none
  | some lineEnd =>
      match cutAt 32 request with
      | (_, none) => none
      | (szReq, some urlBegin) =>
          -- the line is cut at its end while the url is looked for
          let urlBegin :=
            if szReq.length + 1 ≤ lineEnd then urlBegin.take (lineEnd - (szReq.length + 1))
            else urlBegin
          let szUrl := ((beforeLast 32 urlBegin).getD []).take 4095
          if isSupportHttpMethod szReq then
            let szUrl := escapeUrlString junk szUrl
            let parsed := parseUrlParam junk szUrl .empty
            some ⟨szReq, szUrl, parsed.1, parsed.2⟩
          else none

structure TagHttpHeader where
  mHttpMethod : Bytes
  mUrl : Bytes
  mUri : Bytes
  mUrlParams : NameValue

def parseStartLine (junk : Bytes → UInt8) (info : TagHttpHeader) (line : Bytes) : TagHttpHeader :=
  match cutAt 32 line with
  | (_, none) => info
  | (method, some rest) =>
      let info := { info with mHttpMethod := method }
      match beforeLast 32 rest with
      | none => info
      | some url =>
          let parsed := parseUrlParam junk url info.mUrlParams
          { info with
            mUrl := url
            mUri := if parsed.1.head? = some 47 then parsed.1.tail else parsed.1
            mUrlParams := parsed.2 }

/-- `Parse`: what the other lines set is not looked at here. -/
def parseHttpHeader (junk : Bytes → UInt8) (ackHeader : Bytes) : TagHttpHeader :=
  match TextSeparator.items ackHeader (ascii "\r\n") with
  | [] => ⟨[], [], [], .empty⟩
  | line :: _ => parseStartLine junk ⟨[], [], [], .empty⟩ line

end CoreLooper.Http
