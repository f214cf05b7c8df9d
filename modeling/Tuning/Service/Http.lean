import Tuning.Service.Stream
import Tuning.Service.Submission
import Tuning.Text.Percent

/-! # The service over HTTP

A request leads to a response and to the service as it is afterwards. Sessions are submitted, listed,
followed and cancelled below one path. -/

namespace Tuning

/-- A request. -/
structure Request where
  method : String
  /-- The path with the query that may follow it. -/
  target : String
  body : String := ""
  /-- Whether the response can be sent in parts. -/
  streaming : Bool := true

/-- A response. -/
structure Response where
  status : Nat
  headers : List (String × String) := []
  body : String := ""

namespace Response

/-- The headers that let a page of any origin use the service. -/
def openToAll : List (String × String) :=
  [("Access-Control-Allow-Origin", "*"), ("Access-Control-Allow-Methods", "GET, POST, DELETE, OPTIONS"),
    ("Access-Control-Allow-Headers", "Content-Type")]

/-- A response that pages of any origin can see. -/
def shared (r : Response) : Response :=
  { r with headers := openToAll ++ r.headers }

/-- A response that is a line of text. -/
def message (status : Nat) (text : String) : Response :=
  { status, headers := [("Content-Type", "text/plain; charset=utf-8")], body := text ++ "\n" }

/-- A response that is a document; it is empty if there is no such document. -/
def document (status : Nat) (result : Except EncodeError Json) : Response :=
  { status, headers := [("Content-Type", "application/json")]
    body := match result with
      | .ok j => j.compact ++ "\n"
      | .error _ => "" }

/-- No response: the work on the request broke down. -/
def absent : Response :=
  { status := 0 }

/-- A text between the tags of a page. -/
def escaped (text : String) : String :=
  String.join (text.toList.map fun
    | '&' => "&amp;"
    | '<' => "&lt;"
    | '>' => "&gt;"
    | '"' => "&#34;"
    | '\x27' => "&#39;"
    | c => c.toString)

/-- Sends a client to another path. -/
def redirect (method path : String) : Response :=
  let page := "<a href=\"" ++ escaped path ++ "\">Temporary Redirect</a>.\n\n"
  { status := 307
    headers := [("Location", Percent.ascii path)]
      ++ (if method = "GET" ∨ method = "HEAD" then [("Content-Type", "text/html; charset=utf-8")] else [])
    body := if method = "GET" then page else "" }

/-- The answer to a method that a path does not know. -/
def methodNotAllowed : Response :=
  message 405 "Method not allowed"

/-- The answer to a session that nobody knows. -/
def unknownSession : Response :=
  message 404 "Session not found"

/-- The response of a stream. -/
def events (body : String) : Response :=
  { status := 200
    headers := [("Content-Type", "text/event-stream"), ("Cache-Control", "no-cache"),
      ("Connection", "keep-alive")]
    body }

end Response

namespace Request

/-- The path and the query, which begins with its mark. -/
def split (r : Request) : String × String :=
  let cs := r.target.toList
  (String.ofList (cs.takeWhile (· ≠ '?')), String.ofList (cs.dropWhile (· ≠ '?')))

/-- A path without dots and doubled slashes; a slash at its end stays. -/
def cleaned (path : String) : String :=
  let clean := (Path.join ["/" ++ path]).text
  if path.endsWith "/" ∧ clean ≠ "/" then clean ++ "/" else clean

end Request

namespace Service

/-- Submits a session. -/
def handleCreate (s : Service) (id : String) (r : Request) : Response × Service :=
  match Submission.check r.body with
  | .error error =>
    (if errorKind error = .breakdown then .absent else .message 400 error.message, s)
  | .ok (space, config, objective) =>
    let (job, s) := s.submit id config space objective
    (.document 201 job.encode, s)

/-- Lists the jobs. -/
def handleList (s : Service) : Response :=
  .document 200 (return .array (← s.list.mapM Job.encode))

/-- Shows where a job stands. -/
def handleStatus (s : Service) (id : String) : Response :=
  match s.find? id with
  | none => .unknownSession
  | some job => .document 200 (job.encodeStatus s.runner.now)

/-- Tells the work on a job to end. -/
def handleCancel (s : Service) (id : String) : Response × Service :=
  match s.find? id with
  | none => (.unknownSession, s)
  | some job =>
    match s.cancel id with
    | (true, s) => ({ status := 202 }, s)
    | (false, s) => (.message 409 ("Session already " ++ job.state.name), s)

/-- Shows the report of a session. -/
def handleReport (s : Service) (id : String) : Response :=
  match s.runner.store with
  | none => .message 404 "Reports are disabled"
  | some store =>
    match ((store.load id).run s.runner.files).1 with
    | .ok report => .document 200 report.encode
    | .error (.notFound _) => .message 404 "Report not found"
    | .error error => .message 500 error.message

/-- Shows the trace of a session. -/
def handleTrace (s : Service) (id : String) : Response :=
  match s.runner.store with
  | none => .message 404 "Traces are disabled"
  | some store =>
    match ((Trace.readAll store id).run s.runner.files).1 with
    | .ok [] => .document 200 (.ok .null)
    | .ok entries => .document 200 (return .array (← entries.mapM TraceEntry.encode))
    | .error (.store (.notFound _)) => .message 404 "Trace not found"
    | .error error => .message 500 error.message

/-- Follows a job as far as it has come. -/
def handleStream (s : Service) (id : String) (r : Request) : Response × Service :=
  match s.find? id with
  | none => (.unknownSession, s)
  | some job =>
    if r.streaming then
      let (st, s) := s.openStream job none
      let (st, s) := s.closeStream st
      (.events st.text, s)
    else (.message 500 "SSE not supported", s)

/-- Answers below the path of all sessions, where a session and a part of it are named. -/
def handleSession (s : Service) (r : Request) (names : List String) : Response × Service :=
  let id := names.headD ""
  let sub := names.tail.headD ""
  if id = "" then (.message 400 "Session ID required", s)
  else if sub = "" ∧ r.method = "DELETE" then s.handleCancel id
  else if r.method ≠ "GET" then (.methodNotAllowed, s)
  else match sub with
    | "" | "status" => (s.handleStatus id, s)
    | "stream" => s.handleStream id r
    | "report" => (s.handleReport id, s)
    | "trace" => (s.handleTrace id, s)
    | _ => (.message 404 "Not found", s)

/-- Answers a request for a path; a new session gets the given id. A slash that is written as a byte
divides only what stands below the path of all sessions. -/
def route (s : Service) (id path : String) (r : Request) : Response × Service :=
  match (Path.split path).map Percent.decode with
  | ["", "api", "v1", "sessions"] =>
    match r.method with
    | "POST" => s.handleCreate id r
    | "GET" => (s.handleList, s)
    | _ => (.methodNotAllowed, s)
  | ["", "api", "v1", "objectives"] =>
    if r.method = "GET" then
      (.document 200 (.ok (.object [("objectives", .array (Objective.names.map .string))])), s)
    else (.methodNotAllowed, s)
  | "" :: "api" :: "v1" :: "sessions" :: _ => s.handleSession r ((Path.split (Percent.decode path)).drop 4)
  | _ => (.message 404 "404 page not found", s)

/-- Answers a request; a new session gets the given id. -/
def handle (s : Service) (id : String) (r : Request) : Response × Service :=
  let (path, query) := r.split
  let path := Percent.path path
  let (response, s) :=
    if r.method = "OPTIONS" then ({ status := 200 }, s)
    else if r.method ≠ "CONNECT" ∧ Request.cleaned path ≠ path then
      (.redirect r.method (Request.cleaned path ++ (if query = "?" then "" else query)), s)
    else s.route id path r
  (response.shared, s)

end Service

end Tuning
