/-
  Start-up and options that are not set.

  The configuration is complete when every required option could be read (`Complete`). `main`
  records each one that is missing and gives up before it makes a server, but it registers fonts
  and plugins before it looks at what it recorded, and there it uses `*fonts` and `*plugins`
  without asking whether they are set. So start-up is safe exactly when these two keys are there by
  the time they are used (`start_up_iff`).
-/
import PaleoServer.Main

namespace PaleoServer.Main

open Script

variable {Double Envelope : Type}

/-! ## The parts of `main` -/

section

variable {P : Action Envelope → Prop} {E : Stop → Prop}

theorem ends_deref {α : Type} {o : Option α} {a : α} (h : o = some a) :
    Ends (deref o : Startup Envelope α) P (· = a) E := by
  subst h
  exact .pure rfl

theorem ends_call {α : Type} (r : Except Bytes α) (hE : ∀ what, E (.exception what)) :
    Ends (call r : Startup Envelope α) P (r = .ok ·) E := by
  cases r with
  | ok a => exact .pure rfl
  | error what => exact .stop (hE what)

theorem ends_require {α : Type} (value : Option α) (message jsonConfig : Bytes)
    (hP : ∀ text, P (.cerr text)) :
    Ends (require value message jsonConfig) P (· = value.isNone) E := by
  unfold require
  split
  · rename_i hnone
    exact (Ends.emit (hP _)).bind fun _ _ => .pure hnone.symm
  · rename_i hsome
    exact .pure (Bool.eq_false_iff.mpr hsome).symm

theorem ends_registerFonts (sys : System Double Envelope) (dir : Bytes) (recurse : Bool)
    (hP : ∀ text, P (.cerr text)) (hfonts : P (.registerFonts dir recurse))
    (hE : ∀ what, E (.exception what)) :
    Ends (registerFonts sys dir recurse) P (fun _ => sys.registerFonts dir recurse = .ok ()) E := by
  unfold registerFonts
  refine (Ends.emit hfonts).bind fun _ _ => (ends_call _ hE).bind fun _ hok => .ite ?_ ?_
  · intro _
    exact (Ends.emit (hP _)).imp fun _ _ => hok
  · intro _
    exact .pure hok

theorem ends_registerDatasources (sys : System Double Envelope) (dir : Bytes)
    (hdir : P (.registerDatasources dir)) (hE : ∀ what, E (.exception what)) :
    Ends (registerDatasources sys dir) P (fun _ => True) E :=
  (Ends.emit hdir).bind fun _ _ => (ends_call _ hE).imp fun _ _ => trivial

theorem ends_parseMaxExtent (sys : System Double Envelope) (s : Bytes)
    (hclog : ∀ text, P (.clog text)) : Ends (parseMaxExtent sys s) P (fun _ => True) E := by
  unfold parseMaxExtent
  cases bboxClog sys.lexicalCast sys.badLexicalCast 0 (tokens (bytes ", ") s) with
  | none => exact .pure trivial
  | some text => exact (Ends.emit (hclog text)).bind fun _ _ => .pure trivial

theorem ends_readMaxExtent (sys : System Double Envelope) (pt : Ptree)
    (hclog : ∀ text, P (.clog text)) : Ends (readMaxExtent sys pt) P (fun _ => True) E := by
  unfold readMaxExtent
  cases h : pt.getString (bytes "max_extent") with
  | none => exact .pure trivial
  | some s =>
    exact (ends_deref rfl).bind fun _ _ => (ends_parseMaxExtent sys _ hclog).bind fun _ _ =>
      .pure trivial

end

/-- A way to give up: `main` returns 1. -/
def GivesUp (e : Stop) : Prop := e = .exit 1 ∨ ∃ what, e = .exception what

theorem givesUp_exception (what : Bytes) : GivesUp (.exception what) := .inr ⟨what, rfl⟩

/-- Every required option could be read. -/
structure Complete (sys : System Double Envelope) (pt : Ptree) : Prop where
  address : (pt.getString (bytes "address")).isSome
  port : (pt.getString (bytes "port")).isSome
  threads : (pt.getSize sys (bytes "threads")).isSome
  docRoot : (pt.getString (bytes "doc_root")).isSome
  stylesheet : (pt.getString (bytes "stylesheet")).isSome
  fonts : (pt.getString (bytes "fonts")).isSome
  plugins : (pt.getString (bytes "plugins")).isSome

/-- The options the server is made from are set. -/
structure Options.Set (o : Options Envelope) : Prop where
  address : o.address.isSome
  port : o.port.isSome
  threads : o.threads.isSome
  docRoot : o.docRoot.isSome
  stylesheet : o.stylesheet.isSome

/-- The fonts are there to be registered, and the plugins if it comes to them. -/
def Registrable (sys : System Double Envelope) (pt : Ptree) : Prop :=
  ∃ fonts, pt.getString (bytes "fonts") = some fonts ∧
    (sys.registerFonts fonts true = .ok () → (pt.getString (bytes "plugins")).isSome)

section

variable {P : Action Envelope → Prop}

/-- The configuration is read without a dereference of an unset option, and when it is not
    complete, or has a bad `max_extent`, that is recorded. -/
theorem ends_configOptions {sys : System Double Envelope} {jsonConfig : Bytes} {pt : Ptree}
    (hread : sys.readJson jsonConfig = .ok pt) (hreg : Registrable sys pt)
    (hcerr : ∀ text, P (.cerr text)) (hclog : ∀ text, P (.clog text))
    (hfonts : ∀ dir recurse, P (.registerFonts dir recurse))
    (hplugins : ∀ dir, pt.getString (bytes "plugins") = some dir →
      P (.registerDatasources dir)) :
    Ends (configOptions sys jsonConfig) P
      (fun o => o.configErrors = false → Complete sys pt ∧ o.Set) GivesUp := by
  obtain ⟨fonts, hfontsKey, hnext⟩ := hreg
  have hpt : Ends (readConfig sys jsonConfig) P (· = pt) GivesUp := by
    unfold readConfig
    rw [hread]
    exact .pure rfl
  unfold configOptions
  refine hpt.bind fun _ hpt => ?_
  subst hpt
  -- each required option leaves whether it was missing
  refine (ends_require _ _ _ hcerr).bind fun addressError haddress => ?_
  refine (ends_require _ _ _ hcerr).bind fun portError hport => ?_
  refine (ends_require _ _ _ hcerr).bind fun threadsError hthreads => ?_
  refine (ends_require _ _ _ hcerr).bind fun docRootError hdocRoot => ?_
  refine (ends_require _ _ _ hcerr).bind fun stylesheetError hstylesheet => ?_
  refine (ends_require _ _ _ hcerr).bind fun fontsError _ => ?_
  refine (ends_deref hfontsKey).bind fun _ hdir => ?_
  subst hdir
  refine (ends_registerFonts sys _ true hcerr (hfonts _ _) givesUp_exception).bind
    fun _ hregistered => ?_
  -- only now `*plugins` is reached
  obtain ⟨plugins, hpluginsKey⟩ := Option.isSome_iff_exists.mp (hnext hregistered)
  refine (ends_require _ _ _ hcerr).bind fun pluginsError _ => ?_
  refine (ends_deref hpluginsKey).bind fun _ hdir => ?_
  subst hdir
  refine (ends_registerDatasources sys _ (hplugins _ hpluginsKey) givesUp_exception).bind
    fun _ _ => ?_
  refine (ends_readMaxExtent sys _ hclog).bind fun extent _ => .pure fun hno => ?_
  -- no error was recorded, so none of them was missing
  subst haddress hport hthreads hdocRoot hstylesheet
  simp only [Bool.or_eq_false_iff, Option.isNone_eq_false_iff] at hno
  obtain ⟨⟨⟨⟨⟨⟨⟨h1, h2⟩, h3⟩, h4⟩, h5⟩, _⟩, _⟩, _⟩ := hno
  exact ⟨⟨h1, h2, h3, h4, h5, by rw [hfontsKey]; rfl, by rw [hpluginsKey]; rfl⟩,
    ⟨h1, h2, h3, h4, h5⟩⟩

theorem ends_configOptions_unread {sys : System Double Envelope} {jsonConfig what : Bytes}
    (hread : sys.readJson jsonConfig = .error what) (hcerr : ∀ text, P (.cerr text))
    {Q : Options Envelope → Prop} : Ends (configOptions sys jsonConfig) P Q GivesUp := by
  have hstop : Ends (readConfig sys jsonConfig) P (fun _ => False) GivesUp := by
    unfold readConfig
    rw [hread]
    exact (Ends.emit (hcerr _)).bind fun _ _ => .stop (.inl rfl)
  exact hstop.bind fun _ h => h.elim

/-- The command line sets what the server needs. -/
theorem ends_commandOptions (sys : System Double Envelope) (argv : List Bytes) :
    Ends (commandOptions sys argv) (fun _ => True)
      (fun o => o.configErrors = false ∧ o.Set) GivesUp := by
  unfold commandOptions
  refine (ends_call _ givesUp_exception).bind fun threads _ => ?_
  have hdir : Ends (registerMapnikDir sys (some (argv.getD 5 []))) (fun _ => True)
      (fun _ => True) GivesUp := by
    refine .ite (fun _ => ?_) fun _ => .pure trivial
    refine (ends_deref rfl).bind fun _ _ => ?_
    refine (ends_registerFonts sys _ false (fun _ => trivial) trivial givesUp_exception).bind
      fun _ _ => ?_
    refine (ends_deref rfl).bind fun _ _ => ?_
    exact ends_registerDatasources sys _ trivial givesUp_exception
  exact hdir.bind fun _ _ => .pure ⟨rfl, ⟨rfl, rfl, rfl, rfl, rfl⟩⟩

/-- With errors recorded no server is made. -/
theorem ends_launch_errors (sys : System Double Envelope) {o : Options Envelope}
    (h : o.configErrors = true) : Ends (launch sys o) P (fun _ => False) GivesUp := by
  have hstop : Ends (checkConfigErrors o) P (fun _ => False) GivesUp := by
    unfold checkConfigErrors
    rw [if_pos h]
    exact .stop (.inl rfl)
  exact hstop.bind fun _ h => h.elim

/-- Without, everything the server is made from is set. -/
theorem ends_launch (sys : System Double Envelope) {o : Options Envelope} (hset : o.Set) :
    Ends (launch sys o) (fun _ => True) (fun _ => True) GivesUp := by
  obtain ⟨haddress, hport, hthreads, hdocRoot, hstylesheet⟩ := hset
  obtain ⟨address, haddress⟩ := Option.isSome_iff_exists.mp haddress
  obtain ⟨port, hport⟩ := Option.isSome_iff_exists.mp hport
  obtain ⟨threads, hthreads⟩ := Option.isSome_iff_exists.mp hthreads
  obtain ⟨docRoot, hdocRoot⟩ := Option.isSome_iff_exists.mp hdocRoot
  obtain ⟨stylesheet, hstylesheet⟩ := Option.isSome_iff_exists.mp hstylesheet
  have hcheck : Ends (checkConfigErrors o) (fun _ => True) (fun _ => True) GivesUp := by
    refine .ite (fun _ => .stop (.inl rfl)) fun _ => ?_
    refine (ends_deref haddress).bind fun _ _ => ?_
    refine (ends_deref hport).bind fun _ _ => ?_
    exact .emit trivial
  refine hcheck.bind fun _ _ => ?_
  refine (ends_deref haddress).bind fun _ _ => ?_
  refine (ends_deref hport).bind fun _ _ => ?_
  refine (ends_deref hdocRoot).bind fun _ _ => ?_
  refine (ends_deref hthreads).bind fun _ _ => ?_
  refine (ends_deref hstylesheet).bind fun _ _ => ?_
  refine (Ends.emit trivial).bind fun _ _ => ?_
  exact (ends_call _ givesUp_exception).imp fun _ _ => trivial

end

/-! ## The arguments -/

theorem isVersionFlag_of_isHelp {arg : Bytes} (h : isHelp arg = true) :
    isVersionFlag arg = false := by
  simp only [isHelp, isVersionFlag, iequals, Bool.or_eq_true, Bool.or_eq_false_iff,
    beq_iff_eq, beq_eq_false_iff_ne] at h ⊢
  rcases h with h | h
  · rw [h]
    decide
  · rw [h]
    decide

theorem ends_scanArguments {P : Action Envelope → Prop} (sys : System Double Envelope)
    (hcerr : ∀ text, P (.cerr text)) (helpRequested : Bool) (argv : List Bytes) :
    Ends (scanArguments sys helpRequested argv) P
      (fun _ => ∀ arg ∈ argv, isVersionFlag arg = false) GivesUp := by
  induction argv generalizing helpRequested with
  | nil => exact .pure (by simp)
  | cons arg argv ih =>
    unfold scanArguments
    refine .ite (fun hhelp => ?_) fun _ => .ite (fun _ => ?_) fun hversion => ?_
    · exact (ih true).imp fun _ h =>
        List.forall_mem_cons.mpr ⟨isVersionFlag_of_isHelp hhelp, h⟩
    · refine (Ends.emit (hcerr _)).bind fun _ _ => ?_
      refine (Ends.emit (hcerr _)).bind fun _ _ => ?_
      refine (Ends.emit (hcerr _)).bind fun _ _ => ?_
      exact .stop (.inl rfl)
    · exact (ih helpRequested).imp fun _ h =>
        List.forall_mem_cons.mpr ⟨Bool.eq_false_iff.mpr hversion, h⟩

/-- Without a version flag the scan goes through. -/
theorem scanArguments_result (sys : System Double Envelope) (helpRequested : Bool)
    {argv : List Bytes} (h : ∀ arg ∈ argv, isVersionFlag arg = false) :
    ∃ b, (scanArguments sys helpRequested argv).result = .ok b := by
  induction argv generalizing helpRequested with
  | nil => exact ⟨helpRequested, rfl⟩
  | cons arg argv ih =>
    obtain ⟨harg, hargv⟩ := List.forall_mem_cons.mp h
    unfold scanArguments
    by_cases hhelp : isHelp arg = true
    · rw [if_pos hhelp]
      exact ih true hargv
    · rw [if_neg hhelp, if_neg (by simp [harg])]
      exact ih helpRequested hargv

theorem ends_usage {P : Action Envelope → Prop} {E : Stop → Prop} (argv0 : Bytes)
    (hcerr : ∀ text, P (.cerr text)) : Ends (usage argv0) P (fun _ => True) E := by
  unfold usage
  refine (Ends.emit (hcerr _)).bind fun _ _ => ?_
  refine (Ends.emit (hcerr _)).bind fun _ _ => ?_
  refine (Ends.emit (hcerr _)).bind fun _ _ => ?_
  refine (Ends.emit (hcerr _)).bind fun _ _ => ?_
  refine (Ends.emit (hcerr _)).bind fun _ _ => ?_
  refine (Ends.emit (hcerr _)).bind fun _ _ => ?_
  exact .emit (hcerr _)

/-! ## `main` -/

/-- The configuration, when it is read, can be registered. -/
def Startable (sys : System Double Envelope) (argv : List Bytes) : Prop :=
  ∀ pt, argv.length = 2 → (∀ arg ∈ argv, isVersionFlag arg = false) →
    sys.readJson (argv.getD 1 []) = .ok pt → Registrable sys pt

/-- No option is dereferenced that is not set; and when the configuration is not complete, `main`
    returns 1, registers no plugins but those of the configuration, and makes no server. -/
def StartUpSafe (sys : System Double Envelope) (argv : List Bytes) : Prop :=
  (main sys argv).1 ≠ .unsetOptional ∧
  ∀ pt, argv.length = 2 → sys.readJson (argv.getD 1 []) = .ok pt → ¬ Complete sys pt →
    (main sys argv).1 = .returns 1 ∧
    (∀ dir, .registerDatasources dir ∈ (main sys argv).2 →
      pt.getString (bytes "plugins") = some dir) ∧
    ∀ args, .server args ∉ (main sys argv).2

/-- The catch of `main`: what its body ends with, `main` ends with. -/
theorem main_of_ends {P : Action Envelope → Prop} {Q : Unit → Prop}
    {sys : System Double Envelope} {argv : List Bytes}
    (h : Ends (mainTry sys argv) P Q GivesUp) (hcerr : ∀ text, P (.cerr text)) :
    ((main sys argv).1 = .returns 0 ∧ Q () ∨ (main sys argv).1 = .returns 1) ∧
      ∀ w ∈ (main sys argv).2, P w := by
  rcases hr : (mainTry sys argv).result with e | u
  · rcases h.error e hr with rfl | ⟨what, rfl⟩
    · simp only [main, hr]
      exact ⟨.inr trivial, h.log⟩
    · simp only [main, hr]
      refine ⟨.inr trivial, fun w hw => ?_⟩
      rcases List.mem_append.mp hw with hw | hw
      · exact h.log w hw
      · rw [List.mem_singleton.mp hw]
        exact hcerr _
  · simp only [main, hr]
    exact ⟨.inl ⟨trivial, h.ok u hr⟩, h.log⟩

/-- With a command line no option is unset. -/
theorem ends_mainTry_command (sys : System Double Envelope) {argv : List Bytes}
    (hlen : argv.length ≠ 2) :
    Ends (mainTry sys argv) (fun _ => True) (fun _ => True) GivesUp := by
  refine (ends_scanArguments sys (fun _ => trivial) false argv).bind fun helpRequested _ => ?_
  refine .ite (fun _ => ?_) fun hrun => ?_
  · exact (ends_usage _ fun _ => trivial).bind fun _ _ => .stop (.inl rfl)
  · have hcommand : (decide (argv.length > 2) && argv.length == 7) = true := by
      have hjson : (argv.length == 2) = false := by simpa using hlen
      rw [hjson] at hrun
      cases hc : decide (argv.length > 2) && argv.length == 7 with
      | true => rfl
      | false =>
        rw [hc] at hrun
        exact absurd rfl hrun
    have hread : readOptions sys argv = commandOptions sys argv := by
      unfold readOptions
      rw [if_pos hcommand]
    rw [hread]
    exact (ends_commandOptions sys argv).bind fun o ho => ends_launch sys ho.2

/-- With one argument that is not a version flag the options are those of the configuration. -/
theorem mainTry_config (sys : System Double Envelope) {argv : List Bytes}
    (hlen : argv.length = 2) :
    mainTry sys argv = scanArguments sys false argv >>= fun _ =>
      configOptions sys (argv.getD 1 []) >>= launch sys := by
  unfold mainTry readOptions
  simp [hlen]

theorem ends_mainTry_config {sys : System Double Envelope} {argv : List Bytes}
    (hlen : argv.length = 2) (h : Startable sys argv) :
    Ends (mainTry sys argv) (fun _ => True) (fun _ => True) GivesUp := by
  rw [mainTry_config sys hlen]
  refine (ends_scanArguments sys (fun _ => trivial) false argv).bind fun _ hflag => ?_
  cases hread : sys.readJson (argv.getD 1 []) with
  | error what =>
    exact (ends_configOptions_unread hread (fun _ => trivial) (Q := fun _ => False)).bind
      fun _ hno => hno.elim
  | ok pt =>
    refine (ends_configOptions hread (h pt hlen hflag hread) (fun _ => trivial)
      (fun _ => trivial) (fun _ _ => trivial) fun _ _ => trivial).bind fun o ho => ?_
    cases herrors : o.configErrors with
    | true => exact (ends_launch_errors sys herrors).imp fun _ hno => hno.elim
    | false => exact ends_launch sys (ho herrors).2

/-- What may happen before the server is made. -/
def BeforeServer (pt : Ptree) : Action Envelope → Prop
  | .registerDatasources dir => pt.getString (bytes "plugins") = some dir
  | .server _ => False
  | _ => True

/-- A configuration that is not complete stops `main` before the server is made. -/
theorem ends_mainTry_incomplete {sys : System Double Envelope} {argv : List Bytes} {pt : Ptree}
    (hlen : argv.length = 2) (h : Startable sys argv)
    (hread : sys.readJson (argv.getD 1 []) = .ok pt) (hpt : ¬ Complete sys pt) :
    Ends (mainTry sys argv) (BeforeServer pt) (fun _ => False) GivesUp := by
  rw [mainTry_config sys hlen]
  refine (ends_scanArguments sys (fun _ => trivial) false argv).bind fun _ hflag => ?_
  refine (ends_configOptions hread (h pt hlen hflag hread) (fun _ => trivial)
    (fun _ => trivial) (fun _ _ => trivial) fun _ hdir => hdir).bind fun o ho => ?_
  cases herrors : o.configErrors with
  | true => exact ends_launch_errors sys herrors
  | false => exact absurd (ho herrors).1 hpt

theorem startUpSafe_of_startable {sys : System Double Envelope} {argv : List Bytes}
    (h : Startable sys argv) : StartUpSafe sys argv := by
  constructor
  · have hends : Ends (mainTry sys argv) (fun _ => True) (fun _ => True) GivesUp := by
      by_cases hlen : argv.length = 2
      · exact ends_mainTry_config hlen h
      · exact ends_mainTry_command sys hlen
    rcases (main_of_ends hends fun _ => trivial).1 with ⟨hret, _⟩ | hret
    · rw [hret]
      decide
    · rw [hret]
      decide
  · intro pt hlen hread hpt
    have hends := ends_mainTry_incomplete hlen h hread hpt
    obtain ⟨hret, hlog⟩ := main_of_ends hends fun _ => trivial
    refine ⟨hret.resolve_left fun hno => hno.2, fun dir hdir => hlog _ hdir, fun args hargs => ?_⟩
    exact hlog _ hargs

/-! ## Where an option is not set -/

theorem require_result {α : Type} (value : Option α) (message jsonConfig : Bytes) :
    (require value message jsonConfig : Startup Envelope Bool).result = .ok value.isNone := by
  cases value <;> rfl

/-- What the configuration must have before it is used. -/
theorem configOptions_unset {sys : System Double Envelope} {jsonConfig : Bytes} {pt : Ptree}
    (hread : sys.readJson jsonConfig = .ok pt) (h : ¬ Registrable sys pt) :
    (configOptions sys jsonConfig).result = .error .unsetOptional := by
  have hpt : (readConfig sys jsonConfig).result = .ok pt := by
    unfold readConfig
    rw [hread]
    rfl
  unfold configOptions
  rw [bind_result_ok hpt, bind_result_ok (require_result _ _ _),
    bind_result_ok (require_result _ _ _), bind_result_ok (require_result _ _ _),
    bind_result_ok (require_result _ _ _), bind_result_ok (require_result _ _ _),
    bind_result_ok (require_result _ _ _)]
  cases hfonts : pt.getString (bytes "fonts") with
  | none => rfl
  | some fonts =>
    have hreg : sys.registerFonts fonts true = .ok () ∧
        pt.getString (bytes "plugins") = none := by
      by_contra hno
      refine h ⟨fonts, hfonts, fun hok => ?_⟩
      rw [Option.isSome_iff_ne_none]
      exact fun hnone => hno ⟨hok, hnone⟩
    have hcall : (registerFonts sys fonts true).result = .ok () := by
      have hok : (call (.ok ()) : Startup Envelope Unit).result = .ok () := rfl
      unfold registerFonts
      rw [bind_result_ok (emit_result _), hreg.1, bind_result_ok hok]
      split_ifs <;> rfl
    rw [bind_result_ok (show (deref (some fonts)).result = .ok fonts from rfl),
      bind_result_ok hcall, bind_result_ok (require_result _ _ _), hreg.2]
    rfl

theorem startable_of_startUpSafe {sys : System Double Envelope} {argv : List Bytes}
    (h : StartUpSafe sys argv) : Startable sys argv := by
  intro pt hlen hflag hread
  by_contra hreg
  obtain ⟨b, hscan⟩ := scanArguments_result sys false hflag
  have hunset := bind_result_error (configOptions_unset hread hreg) (launch sys)
  have hmain : (mainTry sys argv).result = .error .unsetOptional := by
    rw [mainTry_config sys hlen, bind_result_ok hscan]
    exact hunset
  refine h.1 ?_
  simp only [main, hmain]

/-- **When start-up is safe.** No option is dereferenced that is not set, and a configuration that
    is not complete makes `main` return 1 without a server and without plugins it did not name,
    iff a configuration that is read has the key `fonts`, and `plugins` unless registering
    the fonts throws. -/
theorem start_up_iff (sys : System Double Envelope) (argv : List Bytes) :
    StartUpSafe sys argv ↔ Startable sys argv :=
  ⟨startable_of_startUpSafe, startUpSafe_of_startable⟩

/-- A system on which everything succeeds, with this configuration. -/
def workingSystem (pt : Ptree) : System Nat Unit where
  mapnikVersion := 200000
  boostVersion := 104200
  readJson := fun _ => .ok pt
  translateSize := fun _ => some 2
  lexicalCastSize := fun _ => .ok 2
  registerFonts := fun _ _ => .ok ()
  faceNames := 0
  faceNamesAfter := fun _ _ => 1
  registerDatasources := fun _ => .ok ()
  box := ()
  init := fun _ _ _ _ => ()
  lexicalCast := fun _ => none
  badLexicalCast := bytes "bad lexical cast"
  server := fun _ => .ok ()

/-- A configuration without any key: `*fonts` is evaluated. -/
theorem missing_fonts_dereferenced :
    ¬ ∀ (sys : System Nat Unit) (argv : List Bytes), StartUpSafe sys argv := by
  intro h
  have hsafe := (h (workingSystem []) [bytes "paleoserver", bytes "config.json"]).1
  exact hsafe (by decide +kernel)

end PaleoServer.Main
