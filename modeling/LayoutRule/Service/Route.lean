import LayoutRule.Command.Options
import LayoutRule.Service.Address
import LayoutRule.Service.Body
import LayoutRule.Service.Indent

/-!
# Routes of the service

The service answers three paths: a page at the root, a sign of life, and requests for candidates. A
fourth, with files below it, is kept free and has none. A path that fits only after its double
slashes are made single is redirected.

The body of a request for candidates is read by a `BodyReader`. One whose reading is given up is
answered with status 500, as is a request that no answer was planned for.
-/

namespace LayoutRule

/-- A request to the service. -/
inductive HttpRequest where
  /-- Asks for what is at an address. -/
  | get (address : String)
  /-- Sends a body of a content type to the path of requests for candidates. -/
  | indent (contentType : String) (body : ByteArray)

namespace Response

/-- The content type of an answer. -/
def mimetype (r : Response) : String :=
  match r.content with
  | .json _ => "application/json"
  | .page => "text/html"

end Response

namespace Service

/-! ## Finding the way -/

/-- Where a path leads. -/
inductive Route where
  /-- The page at the root. -/
  | home
  /-- The sign of life. -/
  | health
  /-- Requests for candidates, which have to be sent with a body. -/
  | indent
  /-- A file below the path of files. -/
  | file
deriving DecidableEq, Repr

/-- The path below which files would be. -/
def filesPath : List Char := "/static/".toList

/-- Whether a text can be the path of a file: it does not start with a slash and has no line end
after its start. -/
def isFilePath : List Char → Bool
  | [] => false
  | c :: rest => c != '/' && !rest.contains '\n'

/-- Where a path leads, if it leads anywhere. -/
def route? (path : List Char) : Option Route :=
  if path = "/".toList then some .home
  else if path = "/health".toList then some .health
  else if path = "/api/indent".toList then some .indent
  else if filesPath.isPrefixOf path && isFilePath (path.drop filesPath.length) then some .file
  else none

/-- A path with every pair of slashes made a single one. -/
def mergeSlashes : List Char → List Char
  | [] => []
  | '/' :: '/' :: rest => '/' :: mergeSlashes rest
  | c :: rest => c :: mergeSlashes rest

/-- The answer at a path that leads somewhere. -/
def answerRoute : Route → Response
  | .home => ⟨200, .page⟩
  | .health => ⟨200, .json (.object [("ok", .bool true)])⟩
  | .indent => ⟨405, .page⟩
  | .file => ⟨404, .page⟩

/-- The answer at a path that leads somewhere only with merged slashes, if at all. -/
def answerMerged : Option Route → Response
  | some .indent => ⟨405, .page⟩
  | some _ => ⟨308, .page⟩
  | none => ⟨404, .page⟩

/-- The answer on a socket: there is none, wherever the path leads. -/
def answerSocket : Option Route → Response
  | some .indent => ⟨405, .page⟩
  | some _ => ⟨400, .page⟩
  | none => ⟨404, .page⟩

/-- The answer to a request for a resource. One without a path is redirected to the root. -/
def answerGet (socket : Bool) (resource : List Char) : Response :=
  let path := '/' :: resource.dropWhile (· = '/')
  let found := if resource = [] then none else route? path
  let merged := if resource = [] then none else route? (mergeSlashes path)
  if socket then answerSocket (found <|> merged)
  else if resource = [] then ⟨308, .page⟩
  else
    match found with
    | some route => answerRoute route
    | none => answerMerged merged

/-! ## Answers -/

/-- The answer to a body of a content type, as it is read. -/
def answerBody [Platform] (reader : BodyReader) (base : ServiceSettings) (contentType : String)
    (body : ByteArray) : Response :=
  match reader contentType body with
  | .read value => indent base value
  | .givenUp => ⟨500, .page⟩

/-- Whether a text is a single line. -/
def isOneLine (s : String) : Bool := s.toList.all fun c => c != '\n' && c != '\r'

/-- The answer to a request, with a reader for its body. A request whose address or header is broken
cannot be sent. -/
def respondWith [Platform] (reader : BodyReader) (base : ServiceSettings) :
    HttpRequest → Except Fault Response
  | .get address => do
    let a ← Address.ofString address.toList
    return answerGet a.isSocket (← a.resource)
  | .indent contentType body =>
    if isOneLine contentType then .ok (answerBody reader base contentType body)
    else .error .brokenHeader

/-- The answer of a service that runs. -/
def respond [Platform] : ServiceSettings → HttpRequest → Except Fault Response :=
  respondWith readBody

/-! ## Starting the service -/

/-- How the service is started. -/
structure StartOptions where
  /-- The setup of requests. -/
  base : ServiceSettings
  /-- The host that it listens on. -/
  host : String
  /-- The port that it listens on. -/
  port : Int
  /-- Whether it reports what it does. -/
  verbose : Bool

/-- The options of the service. -/
def specs : List OptionSpec := [
  ⟨["--literate"], .choice ["none", "bird", "latex"]⟩,
  ⟨["--indent-step"], .integer⟩,
  ⟨["--host"], .word⟩,
  ⟨["--port"], .integer⟩,
  ⟨["--verbose"], .flag⟩]

/-- Reads the arguments that the service is started with. -/
def readStart [Platform] (args : List String) : Except UsageStop StartOptions := do
  let a ← readArguments specs none args
  let settings : Settings := match a.integer? "--indent-step" with
    | some step => { indentStep := step }
    | none => {}
  return {
    base :=
      { settings := settings, style := ((a.word? "--literate").bind Literate.ofName?).getD .plain }
    host := (a.word? "--host").getD "127.0.0.1"
    port := (a.integer? "--port").getD 8000
    verbose := a.has "--verbose" }

end Service

end LayoutRule
