import Legible.Proofs.Chain
import Legible.Proofs.Command.Runs
import Legible.Script
import Legible.Text.Markup

/-!
What is left behind when a command fails. A script that cannot be beautified stays as it is, and what
another one becomes depends on nothing but its own content. Nothing is written for a bundle that
cannot be split, and if a module is not below the target directory, only the modules before it are
written.
-/

namespace Legible.Command

open FilePath (tidy absolute)
open Run

structure Starts (s : Surroundings) (o : Options) (c : Settings) (p : Progress) : Prop where
  settings : s.settings o.switches = .ok c
  canStart : canStart s c o = true
  start : (start s c o).result ⟨s.files, [], none⟩ = (.ok (), p)

/-- All that is told while scripts are beautified can be told. -/
structure TellsRun (s : Surroundings) (o : Options) (c : Settings) (scripts : List String) :
    Prop where
  opened : ∀ path, logPath s c o = some path →
    s.Tells ("[yellow]Debug logging enabled: " ++ path ++ "[/yellow]")
  script : ∀ x ∈ scripts, ∀ content, s.files.content? (s.address x) = some content →
    TellsScript s (tidy x) (rewritten s c content)
  saved : ∀ path, logPath s c o = some path →
    s.Tells ("\n[yellow]Debug log saved to: " ++ path ++ "[/yellow]")

variable {s : Surroundings} {o : Options} {c : Settings} {p q : Progress} {a : Address}

/-! ### The start and the end of a run -/

theorem of_start {r : Except Failure Unit} (h : (start s c o).result ⟨s.files, [], none⟩ = (r, p)) :
    p.log = logPath s c o ∧ ∀ a, ¬ IsLog s o c a → p.files.content? a = s.files.content? a := by
  rw [start] at h
  cases hpath : logPath s c o with
  | none =>
    rw [hpath] at h
    obtain ⟨-, rfl⟩ := Prod.mk.inj h
    exact ⟨rfl, fun _ _ => rfl⟩
  | some path =>
    simp only [hpath, result_modify_bind] at h
    have hkeeps a : Keeps s a ⟨s.files.append (s.address path) "", [], some path⟩ p := by
      have hrest := keeps_bind (keeps_say s a ("[yellow]Debug logging enabled: " ++ path ++
        "[/yellow]") ⟨s.files.append (s.address path) "", [], some path⟩)
          fun _ q _ => keeps_record s a .info "Debug logging started" q
      rwa [h] at hrest
    refine ⟨(hkeeps []).log, fun a ha => ?_⟩
    have hne : a ≠ s.address path := fun he => ha ⟨path, hpath, he⟩
    refine ((hkeeps a).content ?_).trans (Files.content?_put_of_ne _ hne _)
    rintro _ ⟨⟩
    exact hne

theorem ne_log (hlog : p.log = logPath s c o) (ha : ¬ IsLog s o c a) :
    ∀ path, p.log = some path → a ≠ s.address path :=
  fun path hpath he => ha ⟨path, hlog ▸ hpath, he⟩

theorem exists_start (hproper : s.files.Proper) (hstart : canStart s c o = true)
    (htells : ∀ path, logPath s c o = some path →
      s.Tells ("[yellow]Debug logging enabled: " ++ path ++ "[/yellow]")) :
    ∃ p, (start s c o).result ⟨s.files, [], none⟩ = (.ok (), p) ∧ Ready s (logPath s c o) p := by
  rw [canStart, Bool.and_eq_true] at hstart
  rw [start]
  cases hpath : logPath s c o with
  | none => exact ⟨_, rfl, .refl hproper, rfl, nofun⟩
  | some path =>
    have hwritable : s.files.isWritable (absolute s.directory path) = true := by
      simpa [hpath] using hstart.2
    have hfits : s.files.Fits (s.address path) := Files.fits_of_isWritable hwritable
    obtain ⟨lines, hsay⟩ := result_say_of_tells
      (p := ⟨s.files.append (s.address path) "", [], some path⟩) (htells path hpath)
    have hready : Ready s (some path) ⟨s.files.append (s.address path) "", lines, some path⟩ := by
      refine ⟨(Files.Grows.refl hproper).put hfits _, rfl, ?_⟩
      rintro _ ⟨⟩
      exact hfits
    obtain ⟨p', hrecord, hp'⟩ := exists_record hready .info "Debug logging started"
    refine ⟨p', ?_, hp'⟩
    rw [result_modify_bind, result_bind, hsay]
    exact hrecord

theorem exists_finish {rows : List Row} (hrows : ∀ r ∈ rows, s.Tells r.name)
    (htells : ∀ path, p.log = some path →
      s.Tells ("\n[yellow]Debug log saved to: " ++ path ++ "[/yellow]")) :
    ∃ q, (finish s rows).result p = (.ok (if rows.all (·.succeeded) then 0 else 1), q) := by
  obtain ⟨cells, hcells⟩ :
      ∃ cells, (rows.map fun r => ([r.name], r.results)).mapM s.toldRow = .ok cells := by
    rw [exists_mapM_eq_ok_iff, List.forall_mem_map]
    intro r hr
    obtain ⟨shown, hshown⟩ := hrows r hr
    exact ⟨shown :: r.results, by rw [Surroundings.toldRow]; simp [told_eq_ok_iff.mpr hshown]⟩
  have hlog : ∀ p' : Progress, p'.log = p.log → ∃ q, (sayLog s).result p' = (.ok (), q) := by
    intro p' hp'
    rw [sayLog, result_get_bind]
    cases hpath : p'.log with
    | none => exact ⟨_, rfl⟩
    | some path =>
      obtain ⟨lines, hsay⟩ := result_say_of_tells (p := p') (htells path (hp' ▸ hpath))
      exact ⟨_, hsay⟩
  obtain ⟨files, hrecord, -⟩ := result_record s .info "Processing complete"
    { p with lines := p.lines ++ .text "Processing Summary" :: .row summaryHeader :: cells.map .row }
  obtain ⟨q, hq⟩ := hlog { p with
    files, lines := p.lines ++ .text "Processing Summary" :: .row summaryHeader :: cells.map .row } rfl
  refine ⟨q, ?_⟩
  rw [finish, result_bind, result_sayTable, hcells]
  simp only [result_bind, hrecord, hq]
  rfl

theorem status_finish {rows : List Row} {n : Nat} (h : (finish s rows).result p = (.ok n, q)) :
    n = if rows.all (·.succeeded) then 0 else 1 := by
  obtain ⟨_, _, -, h⟩ := exists_of_result_bind h
  obtain ⟨_, _, -, h⟩ := exists_of_result_bind h
  obtain ⟨_, _, -, h⟩ := exists_of_result_bind h
  exact (Except.ok.inj (Prod.mk.inj h).1).symm

/-! ### Whole runs -/

theorem files_outcome (run : Run Nat) :
    (s.outcome run).files = (run.result ⟨s.files, [], none⟩).2.files := by
  rw [Surroundings.outcome]
  rcases run.result ⟨s.files, [], none⟩ with ⟨_ | _, _⟩ <;> rfl

theorem status_outcome (run : Run Nat) : (s.outcome run).status =
    match (run.result ⟨s.files, [], none⟩).1 with
    | .ok n => n
    | .error _ => 1 := by
  rw [Surroundings.outcome]
  rcases run.result ⟨s.files, [], none⟩ with ⟨_ | _, _⟩ <;> rfl

theorem content?_outcome {body : Run (List Row)} (ha : ¬ IsLog s o c a)
    (h : ∀ p, p.log = logPath s c o → p.files.content? a = s.files.content? a →
      Keeps s a p (body.result p).2) :
    (s.outcome do
      start s c o
      finish s (← body)).files.content? a = s.files.content? a := by
  rw [files_outcome, result_bind]
  rcases hstart : (start s c o).result ⟨s.files, [], none⟩ with ⟨_ | _, p⟩
  · exact (of_start hstart).2 a ha
  · obtain ⟨hlog, hsame⟩ := of_start hstart
    refine Eq.trans (Keeps.content ?_ (ne_log hlog ha)) (hsame a ha)
    exact keeps_bind (h p hlog (hsame a ha)) fun _ _ _ => keeps_finish ..

theorem content?_beautify (hc : s.settings o.switches = .ok c) {scripts : List String}
    (ha : ¬ IsLog s o c a)
    (h : ∀ x ∈ scripts, s.address x = a → ∀ content, s.files.content? a = some content →
      ∃ e, transformed s c content = .error e) :
    (beautify s scripts o).files.content? a = s.files.content? a := by
  rw [beautify, hc]
  dsimp only
  split_ifs
  · exact content?_outcome ha fun p hlog hsame =>
      keeps_beautifyScripts (ne_log hlog ha) (hsame ▸ h)
  · rfl

theorem beautify_of_tells (hc : s.settings o.switches = .ok c) {scripts : List String}
    (hstart : canStart s c o = true) (hproper : s.files.Proper)
    (hfinds : ∀ x ∈ scripts, s.finds x = true)
    (hnodup : (scripts.map s.address).Nodup) (hlog : ∀ x ∈ scripts, ¬ IsLog s o c (s.address x))
    (htells : TellsRun s o c scripts) :
    let r := beautify s scripts o
    (∀ x ∈ scripts, ∀ content new, s.files.content? (s.address x) = some content →
      rewritten s c content = .ok new →
        r.files.content? (s.address x) = some (.text new)) ∧
    (r.status = 1 ↔ ∃ x ∈ scripts, ∃ content e, s.files.content? (s.address x) = some content ∧
      rewritten s c content = .error e) ∧
    (r.status = 0 ∨ r.status = 1) := by
  obtain ⟨p, hp, hready⟩ := exists_start hproper hstart htells.opened
  have hsame := (of_start hp).2
  obtain ⟨rows, q, hrun, hq, hnames, hrows, hnew⟩ := exists_beautifyScripts hready hproper hfinds
    hnodup (fun x hx path hpath he => hlog x hx ⟨path, hpath, he⟩) (fun x hx => hsame _ (hlog x hx))
    htells.script
  have htold : ∀ r ∈ rows, s.Tells r.name := by
    intro r hr
    have hname : r.name ∈ scripts.map tidy := hnames ▸ List.mem_map_of_mem hr
    obtain ⟨x, hx, hname⟩ := List.mem_map.mp hname
    obtain ⟨content, hcontent⟩ := Option.isSome_iff_exists.mp
      (Files.exists_name_of_leadsToFile hproper (hfinds x hx)).1
    exact hname ▸ (htells.script x hx content hcontent).listed
  obtain ⟨q', hfinish⟩ := exists_finish (p := q) htold (hq.log_eq ▸ htells.saved)
  have hresult : (do
      start s c o
      finish s (← scripts.mapM (beautifyScript s c))).result ⟨s.files, [], none⟩ =
        (.ok (if rows.all (·.succeeded) then 0 else 1), q') := by
    simp only [result_bind, hp, hrun, hfinish]
  have houtcome : beautify s scripts o =
      ⟨q'.files, q'.lines, if rows.all (·.succeeded) then 0 else 1⟩ := by
    rw [beautify, hc]
    simp only [hstart, if_true, Surroundings.outcome, hresult]
  rw [houtcome]
  refine ⟨fun x hx content new hcontent hok => ?_, ?_, ?_⟩
  · have hkeeps := keeps_finish (s := s) (a := s.address x) rows q
    rw [hfinish] at hkeeps
    exact (hkeeps.content (ne_log hq.log_eq (hlog x hx))).trans (hnew x hx content new hcontent hok)
  · rw [← hrows]
    cases rows.all (·.succeeded) <;> simp
  · cases rows.all (·.succeeded) <;> simp

theorem row_of_recordFailure {path : String} {e : Failure} {row : Row}
    (h : (recordFailure s path e).result p = (.ok row, q)) : row = .failed path := by
  obtain ⟨_, _, -, h⟩ := exists_of_result_bind h
  obtain ⟨_, _, -, h⟩ := exists_of_result_bind h
  exact (Except.ok.inj (Prod.mk.inj h).1).symm

section

variable {script dir : String} {target : Option String}

theorem unbundle_of_error (h : Starts s o c p)
    (hdir : (target.map tidy).or c.outputDirectory = some dir) {e : Failure}
    (hwrite : (writeScript s c (tidy script) dir).result p = (.error e, q)) (hlog : q.log = p.log) :
    (unbundle s script target o).status = 1 ∧ ∀ a, ¬ IsLog s o c a →
      (unbundle s script target o).files.content? a = q.files.content? a := by
  have hstart := (of_start h.start).1
  have hrun : unbundle s script target o = (s.outcome do
      start s c o
      finish s (← unbundleScript s c (tidy script) dir)) := by
    rw [unbundle, h.settings]
    simp only [hdir, h.canStart, if_true]
  have hscript : (unbundleScript s c (tidy script) dir).result p =
      (do return [← recordFailure s (tidy script) e]).result q := by
    rw [unbundleScript, result_tryCatch, hwrite]
  rw [hrun, status_outcome, files_outcome, result_bind, h.start]
  dsimp only
  rw [result_bind, hscript, result_bind]
  have hfailed a := keeps_recordFailure (s := s) (a := a) (tidy script) e q
  rcases hrow : (recordFailure s (tidy script) e).result q with ⟨_ | row, q'⟩
  · rw [hrow] at hfailed
    exact ⟨rfl, fun a ha => (hfailed a).content (ne_log (hlog.trans hstart) ha)⟩
  · rw [hrow] at hfailed
    obtain rfl := row_of_recordFailure hrow
    dsimp only [result_pure]
    have hfinished a := keeps_finish (s := s) (a := a) [.failed (tidy script)] q'
    rcases hfinish : (finish s [.failed (tidy script)]).result q' with ⟨_ | n, r⟩
    all_goals
      rw [hfinish] at hfinished
      refine ⟨?_, fun a ha =>
        ((hfailed a).trans (hfinished a)).content (ne_log (hlog.trans hstart) ha)⟩
    · rfl
    · exact status_finish hfinish

end

theorem beautify_of_not_starts
    (h : ∀ c, s.settings o.switches = .ok c → canStart s c o = false) (scripts : List String) :
    (beautify s scripts o).files = s.files ∧ (beautify s scripts o).status = 1 := by
  rw [beautify]
  split
  · exact ⟨rfl, rfl⟩
  · rename_i c hc
    rw [h c hc]
    exact ⟨rfl, rfl⟩

theorem unbundle_of_not_starts
    (h : ∀ c, s.settings o.switches = .ok c → canStart s c o = false) (script : String)
    (target : Option String) :
    (unbundle s script target o).files = s.files ∧ (unbundle s script target o).status = 1 := by
  rw [unbundle]
  split
  · exact ⟨rfl, rfl⟩
  · rename_i c hc
    split
    · rw [status_outcome, files_outcome, result_bind]
      rcases hsay : (say s _).result ⟨s.files, [], none⟩ with ⟨_ | _, p⟩
      all_goals
        obtain ⟨lines, rfl⟩ := exists_lines_of_say hsay
        exact ⟨rfl, rfl⟩
    · rw [h c hc]
      exact ⟨rfl, rfl⟩

/-! ### Failures -/

theorem transform_of_off (hvars : c.renameVariables = false) (hcode : c.simplifyCode = false)
    (t : Tree) (x : Option Transform.Analysis) : transform c t x = .ok ⟨t, x, false, false, {}⟩ := by
  have hrun : (Transform.standardChain c.nameStyle c.nameSeed).run ⟨t, x, false, false, {}⟩ =
      .ok ⟨t, x, false, false, {}⟩ := by
    apply Chain.run_of_disabled
    intro p hp
    simp only [Transform.standardChain, Transform.addStandard, Chain.add, Chain.byPriority,
      List.mem_mergeSort, List.mem_append, List.mem_singleton, List.not_mem_nil, false_or] at hp
    rcases hp with (rfl | rfl) | rfl <;> rfl
  rw [transform, hvars, hcode, hrun]
  rfl

theorem rewritten_of_off (hvars : c.renameVariables = false) (hcode : c.simplifyCode = false)
    {content : Content} {t : Tree} (ht : parseContent s.parse content = .ok t) :
    rewritten s c content =
      (Text.encode (s.print c.indentSize t)).mapError .unencodable := by
  rw [rewritten_eq, ht]
  simp only [transform_of_off hvars hcode]

theorem writeModule_of_off (hvars : c.renameVariables = false) (hcode : c.simplifyCode = false)
    {target path text new : String} {m : Bundle.Module}
    (hpath : FilePath.output target m.name = .ok path) (htext : Text.encode path = .ok text)
    (hnew : Text.encode (s.print c.indentSize (programOf m)) = .ok new)
    (hopened : ∃ fs, p.files.opened path = .ok fs) (hlog : p.log = none)
    (htells : s.Tells ("[green]Saved output to: " ++ path ++ "[/green]")) :
    ∃ row q, (writeModule s c target m).result p = (.ok row, q) := by
  obtain ⟨fs, hfs⟩ := hopened
  obtain ⟨files, hrecord, rfl | ⟨_, _, hsome, -⟩⟩ :=
    result_record s .info ("Transformed module " ++ m.name) p
  · obtain ⟨lines, hsay⟩ := result_say_of_tells
      (p := { p with files := fs.put (FilePath.addressOf path) (.text new) }) htells
    refine ⟨⟨m.name, {}, true⟩,
      { p with files := fs.put (FilePath.addressOf path) (.text new), lines }, ?_⟩
    simp only [writeModule, save, result_bind, result_of, result_get, result_modify, result_pure,
      hpath, transform_of_off hvars hcode, hrecord, htext, hfs, hnew, mapError_ok, hsay]
  · cases hlog.symm.trans hsome

theorem writeScript_of_names {script target : String} {x y : Bundle.Module}
    {e : FilePath.EscapeError} (hms : splitScript s p.files script = .ok [x, y])
    (hx : ∀ lines, ∃ row q, (writeModule s c (absolute s.directory target) x).result
      { p with lines } = (.ok row, q))
    (hy : FilePath.output (absolute s.directory target) y.name = .error e)
    (hbegun : s.Tells ("[blue]Unbundling[/blue] " ++ script ++ " [dim]into " ++ target ++ "[/dim]"))
    (hfound : s.Tells ("[green]Found " ++ toString 2 ++ " modules[/green]")) :
    ∃ q, (writeScript s c script target).result p = (.error (.escape e), q) := by
  obtain ⟨lines, hbegun⟩ := result_say_of_tells (p := p) hbegun
  obtain ⟨lines', hfound⟩ := result_say_of_tells (p := { p with lines }) hfound
  obtain ⟨row, q, hx⟩ := hx lines'
  have hy' : (writeModule s c (absolute s.directory target) y).result q = (.error (.escape e), q) := by
    rw [writeModule, result_bind, hy]
    rfl
  refine ⟨q, ?_⟩
  simp only [writeScript, result_bind, hbegun, result_get, result_of, hms, hfound, result_mapM_cons,
    hx, hy', List.length_cons, List.length_nil]

def printing : Settings := { renameVariables := false, simplifyCode := false }

def mixedScripts : Surroundings where
  files :=
    { contents := [(["work".toList, "a.js".toList], .text "("),
        (["work".toList, "b.js".toList], .text "f()"),
        (["work".toList, "c.js".toList],
          .text ("(function()\x7b\x7d)()(\x7b1:[function()\x7b\x7d,\x7b'./..':2\x7d]," ++
            "2:[function()\x7b\x7d,\x7b\x7d]\x7d,\x7b\x7d,[1])"))]
      directories := [["work".toList]] }
  directory := "/work"
  stamp := ""
  configure := fun given => Settings.read ⟨given, [], []⟩
  parse := Script.parse
  print := fun _ t => if (t.get "body").items.isEmpty then "" else "f();"
  tell := Text.shown

theorem splitScript_mixedScripts : ∃ m n, m.name = "/main" ∧ n.name = "/.." ∧
    splitScript mixedScripts mixedScripts.files "c.js" = .ok [m, n] := by
  have hnames : (splitScript mixedScripts mixedScripts.files "c.js").toOption.map (·.map (·.name)) =
      some ["/main", "/.."] := by
    decide +kernel
  cases hms : splitScript mixedScripts mixedScripts.files "c.js" with
  | error e =>
    rw [hms] at hnames
    cases hnames
  | ok ms =>
    rw [hms] at hnames
    obtain ⟨m, ms', rfl, hm, hrest⟩ := List.map_eq_cons_iff.mp (Option.some.inj hnames)
    obtain ⟨n, ms', rfl, hn, hnil⟩ := List.map_eq_cons_iff.mp hrest
    obtain rfl := List.map_eq_nil_iff.mp hnil
    exact ⟨m, n, hm, hn, rfl⟩

theorem output_mixedScripts :
    FilePath.output (absolute mixedScripts.directory "out") "/main" = .ok "/work/out/main.js" ∧
      FilePath.output (absolute mixedScripts.directory "out") "/.." = .error ⟨"/work.js"⟩ :=
  ⟨rfl, rfl⟩

theorem encode_mixedScripts (n : Nat) (t : Tree) :
    Text.encode (mixedScripts.print n t) = .ok (mixedScripts.print n t) := by
  have hprint : mixedScripts.print n t = "" ∨ mixedScripts.print n t = "f();" := ite_eq_or_eq ..
  rcases hprint with h | h
  all_goals
    rw [h]
    decide +kernel

theorem parseContent_mixedScripts :
    parseContent Script.parse (.text "(") = .error (.unreadable "") ∧
      ∃ t, parseContent Script.parse (.text "f()") = .ok t ∧ mixedScripts.print 2 t = "f();" := by
  constructor
  · have hnone : (Script.parse? "(").isNone = true := by decide +kernel
    have htext : Text.withSigns (Text.withLineFeeds "(") = "(" := by decide +kernel
    have hparse : Script.parse "(" = .error "" := by
      rw [Script.parse, Option.isNone_iff_eq_none.mp hnone]
    rw [parseContent_text, htext, hparse, mapError_error]
  · have hprint : (parseContent Script.parse (.text "f()")).toOption.map (mixedScripts.print 2) =
        some "f();" := by
      decide +kernel
    cases ht : parseContent Script.parse (.text "f()") with
    | error e =>
      rw [ht] at hprint
      cases hprint
    | ok t =>
      rw [ht] at hprint
      exact ⟨t, rfl, Option.some.inj hprint⟩

theorem rewritten_mixedScripts :
    rewritten mixedScripts printing (.text "(") = .error (.unreadable "") ∧
      rewritten mixedScripts printing (.text "f()") = .ok "f();" := by
  obtain ⟨herror, t, ht, hprint⟩ := parseContent_mixedScripts
  constructor
  · rw [rewritten_eq, show mixedScripts.parse = Script.parse from rfl, herror]
  · rw [rewritten_of_off (s := mixedScripts) (c := printing) rfl rfl ht, encode_mixedScripts]
    exact congrArg Except.ok hprint

theorem tells_mixedScripts {text : String} (h : (Text.shown text).toOption.isSome = true) :
    mixedScripts.Tells text := by
  obtain ⟨shown, hshown⟩ := Option.isSome_iff_exists.mp h
  cases hs : Text.shown text with
  | error e =>
    rw [hs] at hshown
    cases hshown
  | ok shown => exact ⟨shown, hs⟩

theorem tellsRun_mixedScripts :
    TellsRun mixedScripts { switches := { noMods := true } } printing ["./a.js", "b.js"] := by
  refine ⟨nofun, ?_, nofun⟩
  obtain ⟨hfailed, hsaved⟩ := rewritten_mixedScripts
  rw [List.forall_mem_cons, List.forall_mem_singleton]
  constructor
  · intro content hcontent
    obtain rfl : .text "(" = content := Option.some.inj hcontent
    rw [hfailed]
    refine ⟨tells_mixedScripts (by decide +kernel), nofun, ?_, tells_mixedScripts (by decide +kernel)⟩
    rintro _ ⟨⟩
    exact tells_mixedScripts (by decide +kernel)
  · intro content hcontent
    obtain rfl : .text "f()" = content := Option.some.inj hcontent
    rw [hsaved]
    exact ⟨tells_mixedScripts (by decide +kernel), fun _ _ => tells_mixedScripts (by decide +kernel),
      nofun, tells_mixedScripts (by decide +kernel)⟩

def plainScript : Surroundings where
  files :=
    { contents := [(["work".toList, "p.js".toList], .text "var a = 1;")]
      directories := [["work".toList]] }
  directory := "/work"
  stamp := ""
  configure := fun given => Settings.read ⟨given, [], []⟩
  parse := Script.parse
  print := fun _ _ => "var a = 1;"
  tell := Text.shown

end Legible.Command
