import Legible.Proofs.Command.Steps
import Legible.Proofs.Files

namespace Legible.Command

open FilePath (tidy absolute)
open Run

def transformed (s : Surroundings) (c : Settings) (content : Content) :
    Except Failure Transform.Context := do
  transform c (← parseContent s.parse content) none

def rewritten (s : Surroundings) (c : Settings) (content : Content) : Except Failure String := do
  let r ← transformed s c content
  (Text.encode (s.print c.indentSize r.tree)).mapError .unencodable

def written (s : Surroundings) (c : Settings) (target : String) (m : Bundle.Module) :
    Except Failure (Address × String) := do
  let path ← (FilePath.output target m.name).mapError .escape
  let r ← transform c (programOf m) (some ⟨m.scopes, m.path, m.names⟩)
  let _ ← (Text.encode path).mapError .unencodable
  let text ← (Text.encode (s.print c.indentSize r.tree)).mapError .unencodable
  return (FilePath.addressOf path, text)

def IsLog (s : Surroundings) (o : Options) (c : Settings) (a : Address) : Prop :=
  ∃ path, logPath s c o = some path ∧ a = s.address path

/-- Unless it is the log, a file is as before. -/
structure Keeps (s : Surroundings) (a : Address) (p q : Progress) : Prop where
  log : q.log = p.log
  content : (∀ path, p.log = some path → a ≠ s.address path) →
    q.files.content? a = p.files.content? a

structure Ready (s : Surroundings) (log : Option String) (p : Progress) : Prop where
  grows : s.files.Grows p.files
  log_eq : p.log = log
  fits : ∀ path, log = some path → s.files.Fits (s.address path)

variable {s : Surroundings} {o : Options} {c : Settings} {p q : Progress} {a : Address}
  {log : Option String}

/-! ### What a step keeps -/

theorem Keeps.refl (s : Surroundings) (a : Address) (p : Progress) : Keeps s a p p :=
  ⟨rfl, fun _ => rfl⟩

theorem Keeps.trans {r : Progress} (h : Keeps s a p q) (h' : Keeps s a q r) : Keeps s a p r where
  log := h'.log.trans h.log
  content ha := (h'.content (h.log ▸ ha)).trans (h.content ha)

section

variable {α β : Type}

theorem keeps_bind {x : Run α} {f : α → Run β} (hx : Keeps s a p (x.result p).2)
    (hf : ∀ b q, x.result p = (.ok b, q) → Keeps s a q ((f b).result q).2) :
    Keeps s a p ((x >>= f).result p).2 := by
  rw [result_bind]
  rcases hr : x.result p with ⟨e | b, q⟩ <;> rw [hr] at hx
  · exact hx
  · exact hx.trans (hf b q hr)

theorem keeps_of_bind {r : Except Failure α} {f : α → Run β}
    (hf : ∀ b, r = .ok b → Keeps s a p ((f b).result p).2) :
    Keeps s a p ((Run.of r >>= f).result p).2 :=
  keeps_bind (.refl ..) fun b q hq => by
    obtain ⟨hb, rfl⟩ := Prod.mk.inj hq
    exact hf b hb

theorem keeps_get_bind {f : Progress → Run β} (hf : Keeps s a p ((f p).result p).2) :
    Keeps s a p ((get >>= f).result p).2 := by
  rwa [result_bind, result_get]

theorem keeps_tryCatch {x : Run α} {f : Failure → Run α} (hx : Keeps s a p (x.result p).2)
    (hf : ∀ e q, Keeps s a q ((f e).result q).2) :
    Keeps s a p ((tryCatch x f : Run α).result p).2 := by
  rw [result_tryCatch]
  rcases hr : x.result p with ⟨e | b, q⟩ <;> rw [hr] at hx
  · exact hx.trans (hf e q)
  · exact hx

theorem keeps_mapM {f : α → Run β} {xs : List α}
    (hf : ∀ x ∈ xs, ∀ q, Keeps s a p q → Keeps s a q ((f x).result q).2) :
    Keeps s a p ((xs.mapM f).result p).2 := by
  have hall : ∀ q, Keeps s a p q → Keeps s a q ((xs.mapM f).result q).2 := by
    induction xs with
    | nil => exact fun q _ => .refl ..
    | cons x xs ih =>
      intro q hq
      rw [List.forall_mem_cons] at hf
      rw [List.mapM_cons]
      have hx := hf.1 q hq
      refine keeps_bind hx fun b q' hb => keeps_bind (ih hf.2 q' (hq.trans ?_)) fun _ _ _ => .refl ..
      rwa [hb] at hx
  exact hall p (.refl ..)

end

theorem exists_lines_of_say {text : String} {r : Except Failure Unit}
    (h : (say s text).result p = (r, q)) : ∃ lines, q = { p with lines } := by
  rw [result_say] at h
  split at h <;> exact ⟨_, (Prod.mk.inj h).2.symm⟩

theorem keeps_say (s : Surroundings) (a : Address) (text : String) (p : Progress) :
    Keeps s a p ((say s text).result p).2 := by
  rcases hr : (say s text).result p with ⟨r, q⟩
  obtain ⟨lines, rfl⟩ := exists_lines_of_say hr
  exact ⟨rfl, fun _ => rfl⟩

theorem keeps_sayTable (title : String) (header : List String)
    (rows : List (List String × List String)) (p : Progress) :
    Keeps s a p ((sayTable s title header rows).result p).2 := by
  rw [result_sayTable]
  cases rows.mapM s.toldRow <;> exact ⟨rfl, fun _ => rfl⟩

theorem result_record (s : Surroundings) (l : Level) (message : String) (p : Progress) :
    ∃ files, (record s l message).result p = (.ok (), { p with files }) ∧
      (files = p.files ∨
        ∃ path content, p.log = some path ∧ files = p.files.put (s.address path) content) := by
  obtain ⟨files, lines, log⟩ := p
  rw [record, result_modify]
  cases log with
  | none => exact ⟨files, rfl, Or.inl rfl⟩
  | some path =>
    cases Text.encode (recordText l message) with
    | error e => exact ⟨files, rfl, Or.inl rfl⟩
    | ok text => exact ⟨_, rfl, Or.inr ⟨path, _, rfl, rfl⟩⟩

theorem keeps_record (s : Surroundings) (a : Address) (l : Level) (message : String) (p : Progress) :
    Keeps s a p ((record s l message).result p).2 := by
  obtain ⟨files, h, rfl | ⟨path, content, hpath, rfl⟩⟩ := result_record s l message p
  · rw [h]
    exact .refl ..
  · rw [h]
    exact ⟨rfl, fun ha => Files.content?_put_of_ne _ (ha path hpath) _⟩

theorem keeps_save {path shown : String} {t : Tree} (ha : a ≠ FilePath.addressOf path) :
    Keeps s a p ((save s c path shown t).result p).2 := by
  rw [save]
  refine keeps_get_bind (keeps_of_bind fun files hfiles => ?_)
  obtain rfl := Files.eq_put_of_opened (exists_of_mapError hfiles)
  refine keeps_bind ⟨rfl, fun _ => Files.content?_put_of_ne _ ha _⟩ fun _ _ _ => ?_
  refine keeps_of_bind fun text _ => ?_
  exact keeps_bind ⟨rfl, fun _ => Files.content?_put_of_ne _ ha _⟩ fun _ _ _ => keeps_say ..

theorem keeps_recordFailure (path : String) (e : Failure) (p : Progress) :
    Keeps s a p ((recordFailure s path e).result p).2 :=
  keeps_bind (keeps_say ..) fun _ _ _ => keeps_bind (keeps_record ..) fun _ _ _ => .refl ..

theorem keeps_sayLog (p : Progress) : Keeps s a p ((sayLog s).result p).2 := by
  refine keeps_get_bind ?_
  cases p.log with
  | none => exact .refl ..
  | some path => exact keeps_say ..

theorem keeps_finish (rows : List Row) (p : Progress) :
    Keeps s a p ((finish s rows).result p).2 :=
  keeps_bind (keeps_sayTable ..) fun _ _ _ => keeps_bind (keeps_record ..) fun _ _ _ =>
    keeps_bind (keeps_sayLog _) fun _ _ _ => .refl ..

/-! ### Beautifying -/

theorem address_tidy (s : Surroundings) (path : String) : s.address (tidy path) = s.address path :=
  FilePath.addressOf_absolute_tidy s.directory path

theorem keeps_rewriteScript {path : String}
    (h : s.address path = a → ∀ content, p.files.content? a = some content →
      ∃ e, transformed s c content = .error e) :
    Keeps s a p ((rewriteScript s c path).result p).2 := by
  refine keeps_bind (keeps_say ..) fun _ q hq => ?_
  obtain ⟨lines, rfl⟩ := exists_lines_of_say hq
  refine keeps_get_bind (keeps_of_bind fun t ht => keeps_of_bind fun r hr => ?_)
  refine keeps_bind (keeps_record ..) fun _ _ _ => keeps_bind (keeps_save ?_) fun _ _ _ => .refl ..
  intro ha
  rw [readScript, show s.address path = a from ha.symm] at ht
  cases hcontent : p.files.content? a with
  | none =>
    rw [hcontent] at ht
    cases ht
  | some content =>
    rw [hcontent] at ht
    obtain ⟨e, he⟩ := h ha.symm content hcontent
    rw [transformed, show parseContent s.parse content = .ok t from ht] at he
    cases hr.symm.trans he

theorem keeps_beautifyScript {script : String}
    (h : s.address script = a → ∀ content, p.files.content? a = some content →
      ∃ e, transformed s c content = .error e) :
    Keeps s a p ((beautifyScript s c script).result p).2 := by
  rw [← address_tidy] at h
  exact keeps_tryCatch (keeps_rewriteScript h) fun _ _ => keeps_recordFailure ..

theorem keeps_beautifyScripts {scripts : List String}
    (hlog : ∀ log, p.log = some log → a ≠ s.address log)
    (h : ∀ x ∈ scripts, s.address x = a → ∀ content, p.files.content? a = some content →
      ∃ e, transformed s c content = .error e) :
    Keeps s a p ((scripts.mapM (beautifyScript s c)).result p).2 :=
  keeps_mapM fun x hx _ hq => keeps_beautifyScript fun hx' content hcontent =>
    h x hx hx' content ((hq.content hlog).symm.trans hcontent)

structure TellsScript (s : Surroundings) (path : String) (r : Except Failure String) : Prop where
  begun : s.Tells ("[blue]Beautifying[/blue] " ++ path)
  saved : ∀ new, r = .ok new → s.Tells ("[green]Saved output to: " ++ path ++ "[/green]")
  failed : ∀ e, r = .error e →
    s.Tells ("[red]Error processing " ++ path ++ ": " ++ e.message path ++ "[/red]")
  listed : s.Tells path

theorem rewritten_eq (s : Surroundings) (c : Settings) (content : Content) : rewritten s c content =
    match parseContent s.parse content with
    | .error e => .error e
    | .ok t =>
      match transform c t none with
      | .error e => .error e
      | .ok r => (Text.encode (s.print c.indentSize r.tree)).mapError .unencodable := by
  rw [rewritten, transformed]
  cases parseContent s.parse content with
  | error e => rfl
  | ok t =>
    change transform c t none >>= _ = _
    cases hr : transform c t none with
    | error e => simp only [hr]; rfl
    | ok r => simp only [hr]; rfl

theorem Ready.put (h : Ready s log p) (ha : s.files.Fits a) (content : Content) (lines : List Line) :
    Ready s log { p with files := p.files.put a content, lines } :=
  ⟨h.grows.put ha content, h.log_eq, h.fits⟩

theorem Ready.tell (h : Ready s log p) (lines : List Line) : Ready s log { p with lines } :=
  ⟨h.grows, h.log_eq, h.fits⟩

theorem exists_record (h : Ready s log p) (l : Level) (message : String) :
    ∃ p', (record s l message).result p = (.ok (), p') ∧ Ready s log p' := by
  obtain ⟨files, hr, rfl | ⟨path, content, hpath, rfl⟩⟩ := result_record s l message p
  · exact ⟨_, hr, h⟩
  · exact ⟨_, hr, h.put (h.fits path (h.log_eq ▸ hpath)) content p.lines⟩

theorem exists_recordFailure (h : Ready s log p) {path : String} {e : Failure}
    (htells : s.Tells ("[red]Error processing " ++ path ++ ": " ++ e.message path ++ "[/red]")) :
    ∃ p', (recordFailure s path e).result p = (.ok (.failed path), p') ∧ Ready s log p' := by
  obtain ⟨lines, hsay⟩ := result_say_of_tells (p := p) htells
  have hready : Ready s log { p with lines } := h.tell lines
  obtain ⟨p', hrecord, hp'⟩ := exists_record hready .error ("Failed to process " ++ path)
  refine ⟨p', ?_, hp'⟩
  rw [recordFailure, result_bind, hsay]
  simp only [result_bind, hrecord, result_pure]

theorem exists_save (h : Ready s log p) {path shown : String} {t : Tree}
    (hopened : p.files.opened path = .ok (p.files.put (FilePath.addressOf path) (.text "")))
    (hfits : s.files.Fits (FilePath.addressOf path))
    (htells : ∀ new, Text.encode (s.print c.indentSize t) = .ok new →
      s.Tells ("[green]Saved output to: " ++ shown ++ "[/green]")) :
    ∃ r p', (save s c path shown t).result p = (r, p') ∧ Ready s log p' ∧
      match Text.encode (s.print c.indentSize t) with
      | .ok new => r = .ok () ∧ p'.files.content? (FilePath.addressOf path) = some (.text new)
      | .error e => r = .error (.unencodable e) := by
  have hempty := h.put hfits (.text "") p.lines
  rw [save]
  simp only [result_bind, result_get, result_of, hopened, mapError_ok, result_modify]
  cases hnew : Text.encode (s.print c.indentSize t) with
  | error e => exact ⟨_, _, rfl, hempty, rfl⟩
  | ok new =>
    have hwritten := hempty.put hfits (.text new) p.lines
    obtain ⟨lines, hsay⟩ := result_say_of_tells (htells new hnew)
    exact ⟨_, _, hsay, hwritten.tell lines, rfl, Files.content?_put ..⟩

theorem exists_rewriteScript (h : Ready s log p) {path : String} {content : Content}
    (hcontent : p.files.content? (s.address path) = some content)
    (hfits : s.files.Fits (s.address path))
    (hopened : ∀ fs, s.files.Grows fs →
      fs.opened (absolute s.directory path) = .ok (fs.put (s.address path) (.text "")))
    (htells : TellsScript s path (rewritten s c content)) :
    ∃ r p', (rewriteScript s c path).result p = (r, p') ∧ Ready s log p' ∧
      match rewritten s c content with
      | .ok new => (∃ row, r = .ok row ∧ row.name = path ∧ row.succeeded = true) ∧
          p'.files.content? (s.address path) = some (.text new)
      | .error e => r = .error e := by
  obtain ⟨lines, hsay⟩ := result_say_of_tells (p := p) htells.begun
  have hready : Ready s log { p with lines } := h.tell lines
  have hread : readScript s p.files path = parseContent s.parse content := by
    rw [readScript, hcontent]
  rw [rewritten_eq] at htells ⊢
  rw [rewriteScript]
  simp only [result_bind, hsay, result_get, result_of, hread]
  cases ht : parseContent s.parse content with
  | error e => exact ⟨_, _, rfl, hready, rfl⟩
  | ok t =>
    simp only [ht] at htells ⊢
    cases hr : transform c t none with
    | error e => exact ⟨_, _, rfl, hready, rfl⟩
    | ok r =>
      simp only [hr] at htells ⊢
      obtain ⟨p', hrecord, hp'⟩ := exists_record hready .info ("Transformed " ++ path)
      obtain ⟨r', q, hsave, hq, hnew⟩ := exists_save hp' (c := c) (t := r.tree)
        (hopened _ hp'.grows) hfits fun new hnew => htells.saved new (by rw [hnew]; rfl)
      simp only [hrecord, hsave]
      cases hencode : Text.encode (s.print c.indentSize r.tree) with
      | error e =>
        rw [hencode] at hnew
        obtain rfl := hnew
        exact ⟨_, _, rfl, hq, rfl⟩
      | ok new =>
        rw [hencode] at hnew
        obtain ⟨rfl, hcontent⟩ := hnew
        exact ⟨_, _, rfl, hq, ⟨_, rfl, rfl, rfl⟩, hcontent⟩

theorem exists_beautifyScript (h : Ready s log p) {script : String} {content : Content}
    (hcontent : p.files.content? (s.address script) = some content)
    (hfits : s.files.Fits (s.address script))
    (hopened : ∀ fs, s.files.Grows fs →
      fs.opened (absolute s.directory (tidy script)) = .ok (fs.put (s.address script) (.text "")))
    (htells : TellsScript s (tidy script) (rewritten s c content)) :
    ∃ row p', (beautifyScript s c script).result p = (.ok row, p') ∧ Ready s log p' ∧
      row.name = tidy script ∧
      match rewritten s c content with
      | .ok new => row.succeeded = true ∧ p'.files.content? (s.address script) = some (.text new)
      | .error _ => row.succeeded = false := by
  rw [← address_tidy] at hcontent hfits hopened ⊢
  obtain ⟨r, q, hrun, hq, hr⟩ := exists_rewriteScript h hcontent hfits hopened htells
  rw [beautifyScript]
  simp only [result_tryCatch, hrun]
  cases hrewritten : rewritten s c content with
  | error e =>
    rw [hrewritten] at hr htells
    obtain rfl := hr
    obtain ⟨q', hfail, hq'⟩ := exists_recordFailure hq (htells.failed e rfl)
    exact ⟨_, q', hfail, hq', rfl, rfl⟩
  | ok new =>
    rw [hrewritten] at hr
    obtain ⟨⟨row, rfl, hname, hsucceeded⟩, hnew⟩ := hr
    exact ⟨row, q, rfl, hq, hname, hsucceeded, hnew⟩

theorem content?_beautifyScript {script : String} {r : Except Failure Row}
    (hrun : (beautifyScript s c script).result p = (r, q))
    (hlog : ∀ log, p.log = some log → a ≠ s.address log) (hne : s.address script ≠ a) :
    q.files.content? a = p.files.content? a := by
  have hkeeps := keeps_beautifyScript (p := p) (c := c) fun he => absurd he hne
  rw [hrun] at hkeeps
  exact hkeeps.content hlog

theorem content?_beautifyScripts {scripts : List String} {r : Except Failure (List Row)}
    (hrun : (scripts.mapM (beautifyScript s c)).result p = (r, q))
    (hlog : ∀ log, p.log = some log → a ≠ s.address log) (hne : ∀ x ∈ scripts, s.address x ≠ a) :
    q.files.content? a = p.files.content? a := by
  have hkeeps := keeps_beautifyScripts (c := c) hlog fun x hx he => absurd he (hne x hx)
  rw [hrun] at hkeeps
  exact hkeeps.content hlog

theorem exists_beautifyScripts (h : Ready s log p) (hproper : s.files.Proper)
    {scripts : List String} (hfinds : ∀ x ∈ scripts, s.finds x = true)
    (hnodup : (scripts.map s.address).Nodup)
    (hlog : ∀ x ∈ scripts, ∀ path, log = some path → s.address x ≠ s.address path)
    (hsame : ∀ x ∈ scripts, p.files.content? (s.address x) = s.files.content? (s.address x))
    (htells : ∀ x ∈ scripts, ∀ content, s.files.content? (s.address x) = some content →
      TellsScript s (tidy x) (rewritten s c content)) :
    ∃ rows p', (scripts.mapM (beautifyScript s c)).result p = (.ok rows, p') ∧ Ready s log p' ∧
      rows.map (·.name) = scripts.map tidy ∧
      (rows.all (·.succeeded) = false ↔ ∃ x ∈ scripts, ∃ content e,
        s.files.content? (s.address x) = some content ∧ rewritten s c content = .error e) ∧
      ∀ x ∈ scripts, ∀ content new, s.files.content? (s.address x) = some content →
        rewritten s c content = .ok new →
          p'.files.content? (s.address x) = some (.text new) := by
  induction scripts generalizing p with
  | nil => exact ⟨[], p, rfl, h, rfl, iff_of_false nofun nofun, nofun⟩
  | cons x xs ih =>
    rw [List.forall_mem_cons] at hfinds hlog hsame htells
    rw [List.map_cons, List.nodup_cons] at hnodup
    have hne : ∀ y ∈ xs, s.address y ≠ s.address x := fun y hy he =>
      hnodup.1 (he ▸ List.mem_map_of_mem hy)
    have hfile : s.files.isFile (s.address x) = true :=
      (Files.exists_name_of_leadsToFile hproper hfinds.1).1
    obtain ⟨content, hcontent⟩ := Option.isSome_iff_exists.mp hfile
    obtain ⟨row, q, hrun, hq, hname, hrow⟩ := exists_beautifyScript h (hsame.1.trans hcontent)
      (hproper.fits hfile) (fun _ => Files.opened_of_leadsToFile hproper hfinds.1)
      (htells.1 content hcontent)
    obtain ⟨rows, r, hruns, hr, hnames, hrows, hnew⟩ := ih hq hfinds.2 hnodup.2 hlog.2
      (fun y hy => (content?_beautifyScript hrun (h.log_eq ▸ hlog.2 y hy) (hne y hy).symm).trans
        (hsame.2 y hy)) htells.2
    have hkept := content?_beautifyScripts hruns (hq.log_eq ▸ hlog.1) hne
    refine ⟨row :: rows, r, ?_, hr, ?_, ?_, ?_⟩
    · rw [result_mapM_cons, hrun]
      simp only [hruns]
    · rw [List.map_cons, List.map_cons, hname, hnames]
    · rw [List.all_cons, Bool.and_eq_false_iff, hrows, List.exists_mem_cons_iff]
      refine or_congr_left ?_
      cases hrewritten : rewritten s c content with
      | ok new =>
        rw [hrewritten] at hrow
        refine iff_of_false (by simp [hrow.1]) ?_
        rintro ⟨content', e, hcontent', he⟩
        obtain rfl := Option.some.inj (hcontent.symm.trans hcontent')
        cases hrewritten.symm.trans he
      | error e =>
        rw [hrewritten] at hrow
        exact iff_of_true hrow ⟨content, e, hcontent, hrewritten⟩
    · rw [List.forall_mem_cons]
      refine ⟨fun content' new hcontent' hok => ?_, hnew⟩
      obtain rfl := Option.some.inj (hcontent.symm.trans hcontent')
      rw [hok] at hrow
      exact hkept.trans hrow.2

/-! ### Splitting -/

theorem transform_ne_escape (t : Tree) (x : Option Transform.Analysis) (e : FilePath.EscapeError) :
    transform c t x ≠ .error (.escape e) := by
  rw [transform]
  cases (Transform.standardChain c.nameStyle c.nameSeed).run
      ⟨t, x, c.renameVariables, c.simplifyCode, {}⟩ <;> nofun

theorem parseContent_text (parse : Parser) (text : String) :
    parseContent parse (.text text) =
      (parse (Text.withSigns (Text.withLineFeeds text))).mapError .unreadable := rfl

theorem parseContent_ne_escape (parse : Parser) (content : Content) (e : FilePath.EscapeError) :
    parseContent parse content ≠ .error (.escape e) := by
  cases content with
  | text text =>
    rw [parseContent_text]
    cases parse (Text.withSigns (Text.withLineFeeds text)) <;> nofun
  | bytes bs => nofun

theorem splitScript_ne_escape (fs : Files) (script : String) (e : FilePath.EscapeError) :
    splitScript s fs script ≠ .error (.escape e) := by
  have hread : readScript s fs script ≠ .error (.escape e) := by
    rw [readScript]
    split
    · nofun
    · exact parseContent_ne_escape _ _ e
  rw [splitScript]
  cases ht : readScript s fs script with
  | error e' => exact fun h => hread (ht ▸ congrArg Except.error (Except.error.inj h))
  | ok t =>
    dsimp only [bind, Except.bind]
    split <;> nofun

theorem say_ne_escape {text : String} {e : FilePath.EscapeError} :
    (say s text).result p ≠ (.error (.escape e), q) := by
  intro h
  rw [say] at h
  rcases eq_error_or_of_result_of_bind h with ⟨he, -⟩ | ⟨shown, -, h⟩
  · obtain ⟨_, -, ⟨⟩⟩ := exists_of_mapError_eq_error he
  · cases h

theorem save_eq_ok {path shown : String} {t : Tree} {u : Unit}
    (h : (save s c path shown t).result p = (.ok u, q)) : q.log = p.log ∧
      ∃ new, Text.encode (s.print c.indentSize t) = .ok new ∧
        ∀ a, q.files.content? a = if a = FilePath.addressOf path then some (.text new)
          else p.files.content? a := by
  rw [save, result_get_bind] at h
  obtain ⟨files, hfiles, h⟩ := exists_of_result_of_bind h
  obtain rfl := Files.eq_put_of_opened (exists_of_mapError hfiles)
  rw [result_modify_bind] at h
  obtain ⟨new, hnew, h⟩ := exists_of_result_of_bind h
  rw [result_modify_bind] at h
  obtain ⟨lines, rfl⟩ := exists_lines_of_say h
  refine ⟨rfl, new, exists_of_mapError hnew, fun a => ?_⟩
  split_ifs with ha
  · rw [ha]
    exact Files.content?_put ..
  · exact (Files.content?_put_of_ne _ ha _).trans (Files.content?_put_of_ne _ ha _)

section

variable {target : String} {m : Bundle.Module}

theorem writeModule_eq_ok {row : Row}
    (h : (writeModule s c target m).result p = (.ok row, q)) : q.log = p.log ∧
      ∃ w, written s c target m = .ok w ∧
        ∀ a, (∀ path, p.log = some path → a ≠ s.address path) →
          q.files.content? a = if a = w.1 then some (.text w.2) else p.files.content? a := by
  rw [writeModule] at h
  obtain ⟨path, hpath, h⟩ := exists_of_result_of_bind h
  obtain ⟨r, hr, h⟩ := exists_of_result_of_bind h
  obtain ⟨_, p', hrecord, h⟩ := exists_of_result_bind h
  obtain ⟨_, hencode, h⟩ := exists_of_result_of_bind h
  obtain ⟨_, q', hsave, h⟩ := exists_of_result_bind h
  obtain ⟨-, rfl⟩ := Prod.mk.inj h
  obtain ⟨hlog, new, hnew, hcontent⟩ := save_eq_ok hsave
  have hkeeps a := keeps_record s a .info ("Transformed module " ++ m.name) p
  rw [hrecord] at hkeeps
  refine ⟨hlog.trans (hkeeps []).log, (FilePath.addressOf path, new), ?_, fun a ha => ?_⟩
  · simp only [written, hpath, hr, hencode, hnew, bind, Except.bind]
    rfl
  · rw [hcontent, (hkeeps a).content ha]

theorem save_ne_escape {path shown : String} {t : Tree} {e : FilePath.EscapeError} :
    (save s c path shown t).result p ≠ (.error (.escape e), q) := by
  intro h
  rw [save, result_get_bind] at h
  rcases eq_error_or_of_result_of_bind h with ⟨he, -⟩ | ⟨files, -, h⟩
  · obtain ⟨_, -, ⟨⟩⟩ := exists_of_mapError_eq_error he
  · rw [result_modify_bind] at h
    rcases eq_error_or_of_result_of_bind h with ⟨he, -⟩ | ⟨text, -, h⟩
    · obtain ⟨_, -, ⟨⟩⟩ := exists_of_mapError_eq_error he
    · rw [result_modify_bind] at h
      exact say_ne_escape h

theorem output_of_writeModule {e : FilePath.EscapeError}
    (h : (writeModule s c target m).result p = (.error (.escape e), q)) :
    FilePath.output target m.name = .error e ∧ p = q := by
  rw [writeModule] at h
  rcases eq_error_or_of_result_of_bind h with ⟨he, hp⟩ | ⟨path, -, h⟩
  · obtain ⟨e', he', ⟨⟩⟩ := exists_of_mapError_eq_error he
    exact ⟨he', hp⟩
  · exfalso
    rcases eq_error_or_of_result_of_bind h with ⟨he, -⟩ | ⟨r, -, h⟩
    · exact transform_ne_escape _ _ e he
    rcases eq_error_or_of_result_bind h with h | ⟨_, _, -, h⟩
    · cases h
    rcases eq_error_or_of_result_of_bind h with ⟨he, -⟩ | ⟨_, -, h⟩
    · obtain ⟨_, -, ⟨⟩⟩ := exists_of_mapError_eq_error he
    rcases eq_error_or_of_result_bind h with h | ⟨_, _, -, h⟩
    · exact save_ne_escape h
    · cases h

theorem writeModules_eq_escape {ms : List Bundle.Module} {e : FilePath.EscapeError}
    (h : (ms.mapM (writeModule s c target)).result p = (.error (.escape e), q)) :
    q.log = p.log ∧ ∃ pre m post, ∃ ws : List (Address × String), ms = pre ++ m :: post ∧
      pre.mapM (written s c target) = .ok ws ∧ FilePath.output target m.name = .error e ∧
      ∀ a, (∀ path, p.log = some path → a ≠ s.address path) →
        q.files.content? a = ((ws.reverse.lookup a).map .text).or (p.files.content? a) := by
  induction ms generalizing p with
  | nil => cases h
  | cons m ms ih =>
    rw [List.mapM_cons] at h
    rcases eq_error_or_of_result_bind h with h | ⟨row, p', hm, h⟩
    · obtain ⟨hm, rfl⟩ := output_of_writeModule h
      exact ⟨rfl, [], m, ms, [], rfl, rfl, hm, fun a _ => rfl⟩
    · obtain ⟨hlog, ⟨b, new⟩, hw, hcontent⟩ := writeModule_eq_ok hm
      replace h := (eq_error_or_of_result_bind h).resolve_right (by rintro ⟨_, _, -, ⟨⟩⟩)
      obtain ⟨hlog', pre, m', post, ws, rfl, hpre, hm', hrest⟩ := ih h
      refine ⟨hlog'.trans hlog, m :: pre, m', post, (b, new) :: ws, rfl, ?_, hm', fun a ha => ?_⟩
      · rw [List.mapM_cons, hw, hpre]
        rfl
      · rw [hrest a (hlog ▸ ha), hcontent a ha, List.reverse_cons, List.lookup_append]
        cases ws.reverse.lookup a with
        | some text => rfl
        | none =>
          by_cases hab : a = b
          · simp [hab]
          · simp [hab, List.lookup_cons, beq_false_of_ne hab]

theorem writeScript_eq_escape {script : String} {e : FilePath.EscapeError}
    (h : (writeScript s c script target).result p = (.error (.escape e), q)) :
    q.log = p.log ∧ ∃ ms pre m post, ∃ ws : List (Address × String),
      splitScript s p.files script = .ok ms ∧ ms = pre ++ m :: post ∧
      pre.mapM (written s c (absolute s.directory target)) = .ok ws ∧
      FilePath.output (absolute s.directory target) m.name = .error e ∧
      ∀ a, (∀ path, p.log = some path → a ≠ s.address path) →
        q.files.content? a = ((ws.reverse.lookup a).map .text).or (p.files.content? a) := by
  rw [writeScript] at h
  rcases eq_error_or_of_result_bind h with h | ⟨_, p', hsay, h⟩
  · exact absurd h say_ne_escape
  obtain ⟨lines, rfl⟩ := exists_lines_of_say hsay
  rw [result_get_bind] at h
  rcases eq_error_or_of_result_of_bind h with ⟨he, -⟩ | ⟨ms, hms, h⟩
  · exact absurd he (splitScript_ne_escape _ _ e)
  rcases eq_error_or_of_result_bind h with h | ⟨_, p'', hsay', h⟩
  · exact absurd h say_ne_escape
  obtain ⟨lines', rfl⟩ := exists_lines_of_say hsay'
  obtain ⟨hlog, pre, m, post, ws, hsplit, hpre, hm, hcontent⟩ := writeModules_eq_escape h
  exact ⟨hlog, ms, pre, m, post, ws, hms, hsplit, hpre, hm, hcontent⟩

theorem writeScript_of_error {script : String} {e : Failure}
    (h : splitScript s p.files script = .error e) :
    ∃ e' lines, (writeScript s c script target).result p = (.error e', { p with lines }) := by
  rw [writeScript, result_bind]
  rcases hsay : (say s _).result p with ⟨e' | _, p'⟩
  · obtain ⟨lines, rfl⟩ := exists_lines_of_say hsay
    exact ⟨e', lines, rfl⟩
  · obtain ⟨lines, rfl⟩ := exists_lines_of_say hsay
    refine ⟨e, lines, ?_⟩
    simp only [result_bind, result_get, result_of, h]

end

end Legible.Command
