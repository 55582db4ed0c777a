import MiniDregg.Text.Hex

/-!
# The HTTP projection of a WebSession response

`serializeForOrigin` turns a completed app response into the bytes that the host sends to
the browser. Every header value passes `field`, a redirect passes `relativeLocation`, and
the app may name only the headers of a short list.

## Implementation notes

Texts are lists of characters. The byte tests of the source only ever compare with ASCII
bytes, which no other character contains, so they are tests of characters here; lengths are
lengths in UTF-8. The date of a cookie's expiry comes from the C library and is a parameter.
-/

namespace MiniDregg.SpkHost

open Fallible Text

def MAX_BODY : ℕ := 8 * 1024 * 1024
def MAX_HEADERS : ℕ := 128
def MAX_FIELD : ℕ := 8192
def MAX_HEAD : ℕ := 64 * 1024

/-- A character that no header value may carry: a tab may stand in one. -/
def isRefused (c : Char) : Bool := (decide (c.toNat < 0x20) && c != '\t') || c.toNat == 0x7f

/-- A header value. -/
def field (value : Text) : Result Text := do
  refuseIf (decide (MAX_FIELD < utf8Length value) || value.any isRefused)
    "WebSession response header field refused"
  pure value

def isTokenChar (c : Char) : Bool := c.isAlphanum || "!#$%&'*+-.^_`|~".toList.contains c

/-- A header or cookie name. -/
def token (value : Text) : Result Text := do
  refuseIf (value.isEmpty || decide (128 < utf8Length value) || !value.all isTokenChar)
    "WebSession response token refused"
  pure value

structure ETag where
  value : Text
  weak : Bool

def etag (tag : ETag) : Result Text := do
  refuseIf (decide (MAX_FIELD < utf8Length tag.value) ||
      tag.value.any fun c => decide (c.toNat < 0x20) || c.toNat == 0x7f || c == '"')
    "WebSession response ETag refused"
  pure ((if tag.weak then "W/".toList else []) ++ '"' :: tag.value ++ ['"'])

/-- The header lines with one more, unless they pass the proxy's bound. -/
def add (headers name value : Text) : Result Text := do
  let _ ← token name
  let _ ← field value
  let lines := headers ++ name ++ ": ".toList ++ value ++ "\r\n".toList
  refuseIf (decide (MAX_HEAD - 256 < utf8Length lines))
    "WebSession response headers exceed proxy bound"
  pure lines

/-- A byte of a download name, escaped unless it may stand for itself. -/
def dispositionByte (b : UInt8) : Text :=
  let c := Char.ofNat b.toNat
  if decide (b.toNat < 128) && (c.isAlphanum || "!#$&+-.^_`|~".toList.contains c) then [c]
  else '%' :: (hexByte b).map Char.toUpper

def contentDisposition (value : String) : Result Text := do
  refuseIf (decide (1024 < value.utf8ByteSize))
    "WebSession download name refused: longer than 1024 bytes"
  refuseIf (value.toList.any isControl) "WebSession download name refused: control character"
  pure ("attachment; filename=\"download\"; filename*=UTF-8''".toList ++
    value.toUTF8.toList.flatMap dispositionByte)

/-- White space in the sense of the source's `trim`. -/
def isWhitespace (c : Char) : Bool :=
  let n := c.toNat
  (decide (0x9 ≤ n) && decide (n ≤ 0xd)) || n == 0x20 || n == 0x85 || n == 0xa0 || n == 0x1680 ||
    (decide (0x2000 ≤ n) && decide (n ≤ 0x200a)) || n == 0x2028 || n == 0x2029 || n == 0x202f ||
    n == 0x205f || n == 0x3000

def trim (t : Text) : Text :=
  ((t.dropWhile isWhitespace).reverse.dropWhile isWhitespace).reverse

/-- The characters that end the first segment of a location. -/
def endsSegment (c : Char) : Bool := c == '/' || c == '?' || c == '#'

section
variable (value : Text)

/-- A location on the route's own origin as its path. -/
def withoutOrigin (origin : Option Text) : Text :=
  match origin with
  | none => value
  | some origin =>
    if origin.isPrefixOf value then
      match value.drop origin.length with
      | [] => ['/']
      | c :: rest => if endsSegment c then c :: rest else value
    else value

/-- The check of a redirect's location. -/
def relativeLocation (origin : Option Text) : Result Text := do
  let value := withoutOrigin value origin
  let _ ← field value
  refuseIf (value.isEmpty || value != trim value || "//".toList.isPrefixOf value ||
      value.contains '\\' || (value.takeWhile fun c => !endsSegment c).contains ':')
    "WebSession redirect outside relative app path"
  pure value

def cookieValue : Result Text := do
  refuseIf (decide (MAX_FIELD < utf8Length value) || !value.all fun c =>
      let n := c.toNat
      n == 0x21 || (decide (0x23 ≤ n) && decide (n ≤ 0x2b)) ||
        (decide (0x2d ≤ n) && decide (n ≤ 0x3a)) || (decide (0x3c ≤ n) && decide (n ≤ 0x5b)) ||
        (decide (0x5d ≤ n) && decide (n ≤ 0x7e)))
    "WebSession cookie value refused"
  pure value

def cookiePath : Result Text := do
  if value.isEmpty then pure ['/']
  else
    refuseIf (!(['/'].isPrefixOf value) || decide (MAX_FIELD < utf8Length value) ||
        value.any fun c => decide (c.toNat < 0x20) || c.toNat == 0x7f || c == ';')
      "WebSession cookie path refused"
    pure value

end

inductive CookieExpiry where
  | none
  | absolute (seconds : Int)
  | relative (seconds : ℕ)

structure SetCookie where
  name : Text
  value : Text
  path : Text
  httpOnly : Bool
  expiry : CookieExpiry

structure Header where
  name : String
  value : Text

inductive WebResult where
  | content (status : ℕ) (mimeType encoding language : Text) (etag : Option ETag)
      (body : List UInt8) (downloadName : Option String)
  | noContent (resetForm : Bool) (etag : Option ETag)
  | preconditionFailed (matchingEtag : Option ETag)
  | redirect (permanent switchToGet : Bool) (location : Text)
  | clientError (status : ℕ) (html : String) (nonHtml : Option (Text × List UInt8))
  | serverError (html : String) (nonHtml : Option (Text × List UInt8))

structure WebResponse where
  result : WebResult
  headers : List Header
  setCookies : List SetCookie

/-- A header line for a value that need not be there. -/
def addOption (headers name : Text) (value : Option (Result Text)) : Result Text :=
  match value with
  | none => pure headers
  | some value => do add headers name (← value)

/-- The status line and body of a result, with the header lines it calls for. -/
structure Framed where
  status : ℕ
  reason : String
  headers : Text
  body : List UInt8

def reasonOf : ℕ → String
  | 200 => "OK"
  | 201 => "Created"
  | 202 => "Accepted"
  | 204 => "No Content"
  | 206 => "Partial Content"
  | 207 => "Multi-Status"
  | _ => "Not Modified"

/-- An error page, as what the app says it is or as HTML. -/
def errorPage (status : ℕ) (reason html : String) (nonHtml : Option (Text × List UInt8)) :
    Result Framed :=
  match nonHtml with
  | some (mime, data) => do
    pure ⟨status, reason, ← add [] "Content-Type".toList (← field mime), data⟩
  | none => do
    pure ⟨status, reason, ← add [] "Content-Type".toList "text/html; charset=utf-8".toList,
      html.toUTF8.toList⟩

def frame (origin : Option Text) : WebResult → Result Framed
  | .content status mimeType encoding language tag body downloadName => do
    refuseIf (!([200, 201, 202, 204, 206, 207, 304].contains status))
      "unsupported WebSession content status"
    let bodyless := [204, 304].contains status
    refuseIf (bodyless && !body.isEmpty) "body on bodyless WebSession status"
    let headers ← if bodyless then pure [] else do
      let headers ← add [] "Content-Type".toList (← field mimeType)
      let headers ← if encoding.isEmpty then pure headers
        else add headers "Content-Encoding".toList (← field encoding)
      if language.isEmpty then pure headers
        else add headers "Content-Language".toList (← field language)
    let headers ← addOption headers "ETag".toList (tag.map etag)
    let name := if bodyless then none else downloadName.filter fun n => !n.isEmpty
    let headers ← addOption headers "Content-Disposition".toList (name.map contentDisposition)
    pure ⟨status, reasonOf status, headers, body⟩
  | .noContent resetForm tag => do
    pure ⟨if resetForm then 205 else 204, "No Content",
      ← addOption [] "ETag".toList (tag.map etag), []⟩
  | .preconditionFailed tag => do
    pure ⟨412, "Precondition Failed", ← addOption [] "ETag".toList (tag.map etag), []⟩
  | .redirect permanent switchToGet location => do
    let headers ← add [] "Location".toList (← relativeLocation location origin)
    let status := match permanent, switchToGet with
      | false, false => 307
      | true, false => 308
      | false, true => 303
      | true, true => 301
    pure ⟨status, "Redirect", headers, []⟩
  | .clientError status html nonHtml => do
    refuseIf (!(decide (400 ≤ status) && decide (status ≤ 499)))
      "WebSession client error status refused"
    errorPage status "Client Error" html nonHtml
  | .serverError html nonHtml => errorPage 500 "Internal Server Error" html nonHtml

/-- The text between the commas of a list of compliance classes. -/
def davClasses (value : Text) : List Text :=
  (value.splitOn ',').mapIdx fun i part => if i = 0 then part else part.drop 1

/-- One header that the app names. -/
def checkExtra (statusSeen : Bool) (h : Header) : Result Bool :=
  if h.name = "x-oc-mtime" then pure statusSeen
  else if h.name = "dav" then do
    refuseIf (h.value.isEmpty || !(((h.value.splitOn ',').drop 1).all fun p => p.head? == some ' ') ||
        !(davClasses h.value).all fun p => !p.isEmpty &&
          p.all fun c => c.isAlphanum || "-_.:/<>".toList.contains c)
      "WebSession DAV classes refused"
    pure statusSeen
  else if h.name = "x-sandstorm-app-http-status" then do
    refuseIf (statusSeen || h.value.length != 3 || !h.value.all Char.isDigit ||
        !(decide (200 ≤ digitsValue h.value) && decide (digitsValue h.value ≤ 599)))
      "WebSession original app status refused"
    pure true
  else .error "WebSession response header refused"

/-- The headers that the app names. -/
def addExtras (headers : Text) (statusSeen : Bool) : List Header → Result Text
  | [] => pure headers
  | h :: rest => do
    let statusSeen ← checkExtra statusSeen h
    addExtras (← add headers h.name.toList h.value) statusSeen rest

def toLower (t : Text) : Text := t.map Char.toLower

section Cookies
variable (cookieExpires : Int → Result Text)

/-- One cookie of the app. A lifetime above the largest signed word is a wrapped negative. -/
def renderCookie (cookie : SetCookie) : Result Text := do
  let _ ← token cookie.name
  refuseIf (toLower cookie.name == toLower "__Host-mini_spk_session".toList)
    "app cookie reserved for host transport"
  let value ← cookieValue cookie.value
  let path ← cookiePath cookie.path
  refuseIf ("__Host-".toList.isPrefixOf cookie.name && path != ['/'])
    "app __Host- cookie requires root path"
  let rendered := cookie.name ++ '=' :: value ++ "; Path=".toList ++ path ++
    "; Secure; SameSite=Strict".toList ++ (if cookie.httpOnly then "; HttpOnly".toList else [])
  match cookie.expiry with
  | .none => pure rendered
  | .relative seconds =>
    pure (rendered ++ "; Max-Age=".toList ++
      natText (if 2 ^ 63 - 1 < seconds then 0 else seconds))
  | .absolute seconds => do pure (rendered ++ "; Expires=".toList ++ (← cookieExpires seconds))

def addCookies (headers : Text) : List SetCookie → Result Text
  | [] => pure headers
  | c :: rest => do
    addCookies (← add headers "Set-Cookie".toList (← renderCookie cookieExpires c)) rest

/-- The bytes sent to the browser: the head as text, and the body. -/
def serializeForOrigin (response : WebResponse) (headRequest : Bool) (origin : Option Text) :
    Result (Text × List UInt8) := do
  refuseIf (decide (MAX_HEADERS < response.headers.length + response.setCookies.length))
    "too many WebSession response headers"
  let framed ← frame origin response.result
  refuseIf (decide (MAX_BODY < framed.body.length)) "WebSession response body exceeds bound"
  let headers ← addExtras framed.headers false response.headers
  let headers ← addCookies cookieExpires headers response.setCookies
  let length := if [204, 304].contains framed.status then []
    else "Content-Length: ".toList ++ natText framed.body.length ++ "\r\n".toList
  let head := "HTTP/1.1 ".toList ++ natText framed.status ++ ' ' :: framed.reason.toList ++
    "\r\n".toList ++ headers ++ length ++
    "Cache-Control: no-store\r\nX-Content-Type-Options: nosniff\r\nConnection: close\r\n\r\n".toList
  refuseIf (decide (MAX_HEAD < utf8Length head)) "WebSession HTTP header exceeds proxy bound"
  pure (head, if headRequest then [] else framed.body)

end Cookies

end MiniDregg.SpkHost
