/-
  `src/posix_main.cpp`: what `main` does before the server runs.

  `main` is a `Script` of the actions that can be seen from outside. It may stop by `return`, by an
  exception, which it catches itself, or by `*` on an option that is not set, which has no
  defined result. A `boost::optional` is an `Option`, and `*` is `deref`.

  The libraries are a `System`: reading and converting the configuration, registering fonts and
  plugins, the conversions of `lexical_cast`, `box2d` and the server, whose constructor and
  run are one action. Each may throw. `MAPNIK_VERSION` is at least 800.

  The property tree is the list of the children of the document's root with their data, which is
  all `get_optional` looks at for keys without a dot.
-/
import PaleoServer.Lib.Script
import PaleoServer.UriParser

namespace PaleoServer.Main

variable {Double Envelope : Type}

/-! ## The libraries -/

/-- `boost::property_tree::ptree` of a configuration. -/
abbrev Ptree := List (Bytes × Bytes)

/-- The arguments of the constructor of `server`. -/
structure ServerArgs (Envelope : Type) where
  address : Bytes
  port : Bytes
  docRoot : Bytes
  threads : UInt64
  stylesheet : Bytes
  maxExtent : Envelope
  deriving DecidableEq

/-- What `main` calls. An exception is its `what()`. -/
structure System (Double Envelope : Type) where
  /-- `MAPNIK_VERSION` and `BOOST_VERSION`. -/
  mapnikVersion : Nat
  boostVersion : Nat
  /-- `read_json`. -/
  readJson : Bytes → Except Bytes Ptree
  /-- The conversion in `get_optional<std::size_t>`. -/
  translateSize : Bytes → Option UInt64
  /-- `boost::lexical_cast<std::size_t>`. -/
  lexicalCastSize : Bytes → Except Bytes UInt64
  /-- `freetype_engine::register_fonts`, and the number of `face_names()` before and after. -/
  registerFonts : Bytes → Bool → Except Bytes Unit
  faceNames : Nat
  faceNamesAfter : Bytes → Bool → Nat
  /-- `datasource_cache::register_datasources`. -/
  registerDatasources : Bytes → Except Bytes Unit
  /-- `box2d<double>`: its default value and `init`, and `lexical_cast<double>`. -/
  box : Envelope
  init : Double → Double → Double → Double → Envelope
  lexicalCast : Bytes → Option Double
  /-- What a `bad_lexical_cast` says. -/
  badLexicalCast : Bytes
  /-- The constructor of `server`, and its run until a signal. -/
  server : ServerArgs Envelope → Except Bytes Unit

/-- What `main` does to the outside. -/
inductive Action (Envelope : Type) where
  | cerr (text : Bytes)
  | clog (text : Bytes)
  | registerFonts (dir : Bytes) (recurse : Bool)
  | registerDatasources (dir : Bytes)
  | server (args : ServerArgs Envelope)

/-- Why the body of `main` stops early. -/
inductive Stop where
  | exit (code : Int32)
  | exception (what : Bytes)
  | unsetOptional
  deriving DecidableEq, Repr

/-- A part of `main`. -/
abbrev Startup (Envelope : Type) := Script (Action Envelope) Stop

open Script

/-- `*` on a `boost::optional`. -/
def deref {α : Type} : Option α → Startup Envelope α
  | some a => pure a
  | none => stop .unsetOptional

/-- A call that may throw. -/
def call {α : Type} : Except Bytes α → Startup Envelope α
  | .ok a => pure a
  | .error what => stop (.exception what)

/-! ## The arguments -/

def isHelp (arg : Bytes) : Bool := iequals arg (bytes "--help") || iequals arg (bytes "-h")

def isVersionFlag (arg : Bytes) : Bool :=
  iequals arg (bytes "--version") || iequals arg (bytes "-v")

/-- `format_version`. -/
def formatVersion (version : Nat) : Bytes :=
  decimal (version / 100000) ++ bytes "." ++ decimal (version / 100 % 1000) ++ bytes "." ++
    decimal (version % 100) ++ bytes "\n"

/-- `PALEO_VERSION`. -/
def paleoVersion : Nat := 100

/-- The loop over the arguments: `help_requested`. -/
def scanArguments (sys : System Double Envelope) (helpRequested : Bool) :
    List Bytes → Startup Envelope Bool
  | [] => pure helpRequested
  | arg :: rest =>
    if isHelp arg then scanArguments sys true rest
    else if isVersionFlag arg then do
      emit (.cerr (bytes "Paleoserver version: " ++ formatVersion paleoVersion))
      emit (.cerr (bytes "Mapnik version: " ++ formatVersion sys.mapnikVersion))
      emit (.cerr (bytes "Boost version: " ++ formatVersion sys.boostVersion))
      stop (.exit 1)
    else scanArguments sys helpRequested rest

/-- The usage message; `argv0` is empty where there is none. -/
def usage (argv0 : Bytes) : Startup Envelope Unit := do
  emit (.cerr (bytes "Usage: " ++ argv0 ++ bytes " <config.json>\n"))
  emit (.cerr (bytes "  or\n"))
  emit (.cerr (bytes "Usage: " ++ argv0 ++
    bytes " <address> <port> <threads> <doc_root> <mapnik_dir> <stylesheet>\n"))
  emit (.cerr (bytes "  For IPv4, try:\n"))
  emit (.cerr (bytes "    receiver 0.0.0.0 8000 2 . /usr/local/lib/mapnik stylesheet.xml\n"))
  emit (.cerr (bytes "  For IPv6, try:\n"))
  emit (.cerr (bytes "    receiver 0::0 8000 2 . /usr/local/lib/mapnik stylesheet.xml\n"))

/-! ## The options -/

/-- The options and the flag `main` keeps. -/
structure Options (Envelope : Type) where
  address : Option Bytes
  port : Option Bytes
  threads : Option UInt64
  docRoot : Option Bytes
  stylesheet : Option Bytes
  maxExtent : Envelope
  configErrors : Bool

/-- `register_fonts` with the warning about faces: `!` binds tighter than `>` in its condition. -/
def registerFonts (sys : System Double Envelope) (dir : Bytes) (recurse : Bool) :
    Startup Envelope Unit := do
  emit (.registerFonts dir recurse)
  call (sys.registerFonts dir recurse)
  if (if sys.faceNamesAfter dir recurse = 0 then 1 else 0) > sys.faceNames then
    emit (.cerr (bytes "### Warning: Did not sucessfully register any new fonts!\n"))

def registerDatasources (sys : System Double Envelope) (dir : Bytes) : Startup Envelope Unit := do
  emit (.registerDatasources dir)
  call (sys.registerDatasources dir)

/-- The fonts and plugins below the option `mapnik_dir`. -/
def registerMapnikDir (sys : System Double Envelope) (mapnikDir : Option Bytes) :
    Startup Envelope Unit :=
  if mapnikDir.isSome then do
    registerFonts sys ((← deref mapnikDir) ++ bytes "/fonts") false
    registerDatasources sys ((← deref mapnikDir) ++ bytes "/input")
  else pure ()

/-- The options from the command line. -/
def commandOptions (sys : System Double Envelope) (argv : List Bytes) :
    Startup Envelope (Options Envelope) := do
  let threads ← call (sys.lexicalCastSize (argv.getD 3 []))
  registerMapnikDir sys (some (argv.getD 5 []))
  pure
    { address := some (argv.getD 1 [])
      port := some (argv.getD 2 [])
      threads := some threads
      docRoot := some (argv.getD 4 [])
      stylesheet := some (argv.getD 6 [])
      maxExtent := sys.box
      configErrors := false }

/-- `pt.get_optional<std::string>(key)`. -/
def Ptree.getString (pt : Ptree) (key : Bytes) : Option Bytes := pt.lookup key

/-- `pt.get_optional<std::size_t>(key)`. -/
def Ptree.getSize (sys : System Double Envelope) (pt : Ptree) (key : Bytes) : Option UInt64 :=
  (pt.lookup key).bind sys.translateSize

/-- A required option: when it is not set, a message, and `config_errors`. -/
def require {α : Type} (value : Option α) (message jsonConfig : Bytes) : Startup Envelope Bool :=
  if value.isNone then do
    emit (.cerr (message ++ jsonConfig ++ bytes "\n"))
    pure true
  else pure false

/-- `read_json`, whose exception is reported at once. -/
def readConfig (sys : System Double Envelope) (jsonConfig : Bytes) : Startup Envelope Ptree :=
  match sys.readJson jsonConfig with
  | .ok pt => pure pt
  | .error what => do
    emit (.cerr (bytes "Error attempting to read json config: \"" ++ what ++ bytes "\"\n"))
    stop (.exit 1)

/-- `parse_bbox_from_string`, with its line on `std::clog` about a bad coordinate. -/
def parseMaxExtent (sys : System Double Envelope) (maxExtentString : Bytes) :
    Startup Envelope (Bool × Envelope) := do
  match bboxClog sys.lexicalCast sys.badLexicalCast 0 (tokens (bytes ", ") maxExtentString) with
  | some text => emit (.clog text)
  | none => pure ()
  pure (bboxFromString sys.lexicalCast sys.init sys.box maxExtentString)

/-- The optional `max_extent`: the box, and whether it is an error. -/
def readMaxExtent (sys : System Double Envelope) (pt : Ptree) :
    Startup Envelope (Envelope × Bool) := do
  let maxExtentString := pt.getString (bytes "max_extent")
  if maxExtentString.isSome then
    let (success, maxExtent) ← parseMaxExtent sys (← deref maxExtentString)
    pure (maxExtent, !success)
  else pure (sys.box, false)

/-- The options from the configuration. The fonts and the plugins are registered as soon as
    their keys were looked up. -/
def configOptions (sys : System Double Envelope) (jsonConfig : Bytes) :
    Startup Envelope (Options Envelope) := do
  let pt ← readConfig sys jsonConfig
  let address := pt.getString (bytes "address")
  let addressError ← require address
    (bytes "Config error: please provide a server 'address' (e.g. 0.0.0.0) in ") jsonConfig
  let port := pt.getString (bytes "port")
  let portError ← require port
    (bytes "Config error: please provide a server 'port' to mount on in ") jsonConfig
  let threads := pt.getSize sys (bytes "threads")
  let threadsError ← require threads
    (bytes "Config error: please provide a number of 'threads' to support in ") jsonConfig
  let docRoot := pt.getString (bytes "doc_root")
  let docRootError ← require docRoot
    (bytes "Config error: please provide a document root ('doc_root') in ") jsonConfig
  let stylesheet := pt.getString (bytes "stylesheet")
  let stylesheetError ← require stylesheet
    (bytes "Config error: please provide a the path to a 'stylesheet' to load in ") jsonConfig
  let fonts := pt.getString (bytes "fonts")
  let fontsError ← require fonts
    (bytes "Config error: please provide a mapnik 'fonts' directory in ") jsonConfig
  registerFonts sys (← deref fonts) true
  let plugins := pt.getString (bytes "plugins")
  let pluginsError ← require plugins
    (bytes "Config error: please provide a mapnik 'plugins' directory in ") jsonConfig
  registerDatasources sys (← deref plugins)
  let (maxExtent, extentError) ← readMaxExtent sys pt
  pure
    { address, port, threads, docRoot, stylesheet, maxExtent
      configErrors := addressError || portError || threadsError || docRootError ||
        stylesheetError || fontsError || pluginsError || extentError }

/-! ## `main` -/

/-- The test of `config_errors`. -/
def checkConfigErrors (o : Options Envelope) : Startup Envelope Unit :=
  if o.configErrors then stop (.exit 1)
  else do
    emit (.clog (bytes "ready: listening on " ++ (← deref o.address) ++ bytes ":" ++
      (← deref o.port) ++ bytes "\n"))

/-- The end of `main`: the server, unless there were errors. -/
def launch (sys : System Double Envelope) (o : Options Envelope) : Startup Envelope Unit := do
  checkConfigErrors o
  let args : ServerArgs Envelope :=
    { address := ← deref o.address
      port := ← deref o.port
      docRoot := ← deref o.docRoot
      threads := ← deref o.threads
      stylesheet := ← deref o.stylesheet
      maxExtent := o.maxExtent }
  emit (.server args)
  call (sys.server args)

/-- The options, from the configuration or from the command line. -/
def readOptions (sys : System Double Envelope) (argv : List Bytes) :
    Startup Envelope (Options Envelope) :=
  if argv.length > 2 && argv.length == 7 then commandOptions sys argv
  else configOptions sys (argv.getD 1 [])

/-- What `main` tries. -/
def mainTry (sys : System Double Envelope) (argv : List Bytes) : Startup Envelope Unit := do
  let setupWithJsonConfig := argv.length == 2
  let setupWithCommandOptions := argv.length > 2 && argv.length == 7
  let helpRequested ← scanArguments sys false argv
  if !setupWithJsonConfig && (!setupWithCommandOptions || helpRequested) then
    usage (argv.getD 0 [])
    stop (.exit 1)
  else
    launch sys (← readOptions sys argv)

/-- How `main` ends. -/
inductive Ending where
  | returns (code : Int32)
  | unsetOptional
  deriving DecidableEq, Repr

/-- `main`: how it ends, and what it did. -/
def main (sys : System Double Envelope) (argv : List Bytes) : Ending × List (Action Envelope) :=
  let p := mainTry sys argv
  match p.result with
  | .ok () => (.returns 0, p.log)
  | .error (.exit code) => (.returns code, p.log)
  | .error (.exception what) =>
    (.returns 1, p.log ++ [.cerr (bytes "exception: " ++ what ++ bytes "\n")])
  | .error .unsetOptional => (.unsetOptional, p.log)

end PaleoServer.Main
