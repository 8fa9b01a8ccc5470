/-
  `src/reply.hpp`, `src/reply.cpp` and `src/mime_types.cpp`.

  A reply is its status, its headers and its content. `toBuffers` lists the byte ranges
  handed to the socket, in order. The texts are the source's.
-/
import PaleoServer.RequestParser

namespace PaleoServer

/-! ## `reply.hpp` -/

/-- `reply::status_type`. -/
inductive StatusType where
  | ok
  | created
  | accepted
  | noContent
  | multipleChoices
  | movedPermanently
  | movedTemporarily
  | notModified
  | badRequest
  | unauthorized
  | forbidden
  | notFound
  | internalServerError
  | notImplemented
  | badGateway
  | serviceUnavailable
  deriving DecidableEq, Repr

/-- `struct reply`. -/
structure Reply where
  status : StatusType
  headers : List Header
  content : Bytes
  deriving DecidableEq, Repr

/-! ## `reply.cpp` -/

/-- `status_strings`: the code and the reason phrase of each status. -/
def statusText : StatusType → String
  | .ok => "200 OK"
  | .created => "201 Created"
  | .accepted => "202 Accepted"
  | .noContent => "204 No Content"
  | .multipleChoices => "300 Multiple Choices"
  | .movedPermanently => "301 Moved Permanently"
  | .movedTemporarily => "302 Moved Temporarily"
  | .notModified => "304 Not Modified"
  | .badRequest => "400 Bad Request"
  | .unauthorized => "401 Unauthorized"
  | .forbidden => "403 Forbidden"
  | .notFound => "404 Not Found"
  | .internalServerError => "500 Internal Server Error"
  | .notImplemented => "501 Not Implemented"
  | .badGateway => "502 Bad Gateway"
  | .serviceUnavailable => "503 Service Unavailable"

/-- The status line without its end. -/
def statusLine (status : StatusType) : Bytes := bytes "HTTP/1.0 " ++ bytes (statusText status)

/-- `status_strings::to_buffer`. -/
def statusToBuffer (status : StatusType) : Bytes := statusLine status ++ bytes "\r\n"

/-- `misc_strings::name_value_separator`. -/
def nameValueSeparator : Bytes := bytes ": "

/-- `misc_strings::crlf`. -/
def miscCrlf : Bytes := bytes "\r\n"

/-- `reply::to_buffers`. -/
def Reply.toBuffers (rep : Reply) : List Bytes :=
  [statusToBuffer rep.status] ++
    rep.headers.flatMap (fun h => [h.name, nameValueSeparator, h.value, miscCrlf]) ++
    [miscCrlf, rep.content]

/-- The shape of the pages in `stock_replies`. -/
def stockPage (title heading : String) : Bytes :=
  bytes "<html><head><title>" ++ bytes title ++ bytes "</title></head><body><h1>" ++
    bytes heading ++ bytes "</h1></body></html>"

/-- `stock_replies::to_string`. -/
def stockContent : StatusType → Bytes
  | .ok => []
  | .created => stockPage "Created" "201 Created"
  | .accepted => stockPage "Accepted" "202 Accepted"
  | .noContent => stockPage "No Content" "204 Content"
  | .multipleChoices => stockPage "Multiple Choices" "300 Multiple Choices"
  | .movedPermanently => stockPage "Moved Permanently" "301 Moved Permanently"
  | .movedTemporarily => stockPage "Moved Temporarily" "302 Moved Temporarily"
  | .notModified => stockPage "Not Modified" "304 Not Modified"
  | .badRequest => stockPage "Bad Request" "400 Bad Request"
  | .unauthorized => stockPage "Unauthorized" "401 Unauthorized"
  | .forbidden => stockPage "Forbidden" "403 Forbidden"
  | .notFound => stockPage "Not Found" "404 Not Found"
  | .internalServerError => stockPage "Internal Server Error" "500 Internal Server Error"
  | .notImplemented => stockPage "Not Implemented" "501 Not Implemented"
  | .badGateway => stockPage "Bad Gateway" "502 Bad Gateway"
  | .serviceUnavailable => stockPage "Service Unavailable" "503 Service Unavailable"

/-- The two headers of `stock_reply` and `reply_html`. -/
def htmlHeaders (content : Bytes) : List Header :=
  [⟨bytes "Content-Length", decimal content.length⟩, ⟨bytes "Content-Type", bytes "text/html"⟩]

/-- `reply::stock_reply`. -/
def stockReply (status : StatusType) : Reply :=
  ⟨status, htmlHeaders (stockContent status), stockContent status⟩

/-- `reply::reply_html`. -/
def replyHtml (html : Bytes) : Reply := ⟨.ok, htmlHeaders html, html⟩

/-! ## `mime_types.cpp` -/

/-- `mime_types::r_mappings`: MIME type and extension. -/
def rMappings : List (Bytes × Bytes) :=
  [(bytes "image/png", bytes "png"), (bytes "image/png8", bytes "png8"),
    (bytes "image/jpeg", bytes "jpeg"), (bytes "image/jpg", bytes "jpeg")]

/-- `mime_types::type_to_extension`. -/
def typeToExtension (mimeType : Bytes) : Bytes :=
  match rMappings.lookup mimeType with
  | some extension => extension
  | none => bytes "png"

end PaleoServer
