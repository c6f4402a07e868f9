import Legible.Proofs.Bundle.Parameters
import Legible.Proofs.Command.Steps
import Legible.Text.Markup

/-!
The modules that come out of a bundle and the ones that are listed for it. Every module of the table
comes out once, made from the function of its entry. It is listed by its id and its name, unless
one of these has marks of style in it.
-/

namespace Legible.Bundle

open Command

/-! ### What modules are made of -/

/-- The function of a module is that of an entry, with what a last `eval` evaluates in its place. The
usual names are given to its first parameters, and to nothing else if they are not in the way. -/
structure Made (parse : Parser) (format : Format) (factory : Tree) (m : Module) : Prop where
  inlined : ∃ f, Inlines parse factory f ∧ m.factory = f.numbered
  scope : (Scope.ofTree m.factory).acquire? m.factory.tag = some m.path
  renamed : ∃ s, (Scope.ofTree m.factory).at? m.path = some s ∧ s.kind = .function ∧
    (m.scopes, m.names) = renameParameters m.path
      (parameterPairs s (factory.get "params").items format.parameterNames)
      (Scope.ofTree m.factory, ∅)
  substituted : m.factory.Numbered →
    (∀ e ∈ format.usualNames m.factory, e.1.isKind "Identifier" = true) →
    ((format.usualNames m.factory).map (·.1.name)).Nodup →
    Unobstructed (Scope.ofTree m.factory) m.path (format.usualNames m.factory) →
      ∃ s, (Scope.ofTree m.factory).at? m.path = some s ∧ Substituted format m s
  body : m.body = m.names.apply (m.factory.get "body")

theorem made_of_moduleOf {parse : Parser} {format : Format} {id : Id} {name : String}
    {factory : Tree} {m : Module} (h : moduleOf parse format id name factory = .ok m) :
    Made parse format factory m := by
  obtain ⟨-, -, hprepared⟩ := prepared_of_moduleOf h
  obtain ⟨f, hf, hnumbered⟩ := hprepared.inlined
  obtain ⟨c, hc⟩ : ∃ c, firstMatch factories factory = some c := by
    unfold moduleOf at h
    split at h
    · cases h
    · exact ⟨_, by assumption⟩
  have hinlines := inlines_of_inlineEval (factory_of_match hc).1.isNode (isNode_body hc) hf
  refine ⟨⟨f, hinlines, hnumbered⟩, hprepared.scope, hprepared.renamed, ?_, hprepared.body⟩
  intro ht hkinds hdistinct hclear
  obtain ⟨s, named, hpaired⟩ := exists_paired h ht hkinds hdistinct hclear
  exact ⟨s, hpaired.here, hpaired.substituted⟩

/-! ### What is listed -/

def moduleRow (l : Layout) (names : Table String) (id : Id) : List String :=
  [spelled id, listedName names id, if containsId l.entries id then tick else ""]

section

variable {s : Surroundings} {c : Settings} {script file form : String} {t : Tree} {l : Layout}
  {r : Resolution} (hc : s.settings {} = .ok c) (hd : c.recursionLimit ≤ depthLimit)
  (ht : readScript s s.files script = .ok t) (hl : Layout.ofTree t = .ok l) (hr : resolve l = .ok r)
  (hfile : s.tell ("[blue]File:[/blue] " ++ script) = .ok file)
  (hform : s.tell ("[blue]Format:[/blue] " ++ l.format.text) = .ok form)

include hc hd ht hl hr hfile hform

theorem lines_listModules : (listModules s script).lines = [.text file, .text form] ++
    match (l.ids.map (moduleCells l r.names)).mapM s.toldRow with
    | .ok rows => .text "Modules" :: .row ["Id", "Name", "Entry"] :: rows.map .row
    | .error _ => [] := by
  have hlisting : listing s script = .ok (l, r.names) := by
    rw [listing, ht]
    change (Layout.ofTree t).mapError _ >>= _ = _
    rw [hl]
    change (resolve l).mapError _ >>= _ = _
    rw [hr]
    rfl
  have hids : l.modules.map (fun m => moduleCells l r.names m.1) =
      l.ids.map (moduleCells l r.names) := by
    rw [Layout.ids, List.map_map]
    rfl
  rw [listModules, hc]
  simp only [if_pos hd, Surroundings.outcome, sayModules, hlisting, Run.result_bind, result_say,
    told_eq_ok_iff.mpr hfile, told_eq_ok_iff.mpr hform, result_sayTable, hids]
  cases (l.ids.map (moduleCells l r.names)).mapM s.toldRow <;> rfl

theorem lines_listModules_iff : (listModules s script).lines =
      [.text file, .text form, .text "Modules", .row ["Id", "Name", "Entry"]] ++
        (l.ids.map (moduleRow l r.names)).map .row ↔
    ∀ id ∈ l.ids, s.tell (spelled id) = .ok (spelled id) ∧
      s.tell (listedName r.names id) = .ok (listedName r.names id) := by
  rw [lines_listModules hc hd ht hl hr hfile hform]
  have hrow : ∀ id, (∀ cell ∈ (moduleCells l r.names id).1, s.tell cell = .ok cell) ↔
      s.tell (spelled id) = .ok (spelled id) ∧
        s.tell (listedName r.names id) = .ok (listedName r.names id) := by
    intro id
    rw [moduleCells, List.forall_mem_cons, List.forall_mem_singleton]
    rfl
  have hall : (l.ids.map (moduleCells l r.names)).mapM s.toldRow =
      .ok ((l.ids.map (moduleCells l r.names)).map fun row => row.1 ++ row.2) ↔
        ∀ id ∈ l.ids, s.tell (spelled id) = .ok (spelled id) ∧
          s.tell (listedName r.names id) = .ok (listedName r.names id) := by
    rw [mapM_eq_ok_iff, List.forall_mem_map]
    simp only [toldRow_eq_iff, hrow]
  have hrows : (l.ids.map (moduleCells l r.names)).map (fun row => row.1 ++ row.2) =
      l.ids.map (moduleRow l r.names) := by
    rw [List.map_map]
    rfl
  rw [← hall, hrows]
  cases (l.ids.map (moduleCells l r.names)).mapM s.toldRow with
  | error e => exact iff_of_false (by simp) nofun
  | ok rows =>
    have hinjective : Function.Injective Line.row := fun _ _ => Line.row.inj
    simp [-List.map_map, hinjective.list_map.eq_iff]

end

/-- When a bundle can be split, every module of its table comes out once. It is listed by its id and
its name exactly if these are shown as they are. -/
theorem split_complete {parse : Parser} {t : Tree} (h : (split parse t).failure = none) :
    ∃ table rows l r, tableOf? t = some (l.format, table) ∧ pairsOf table = .ok rows ∧
      Layout.ofTree t = .ok l ∧ Tabulates l.format rows l.modules ∧ resolve l = .ok r ∧
      Complete l r.names (split parse t).modules ∧
      (∀ m ∈ (split parse t).modules, ∃ e, l.modules.get? m.id = some e ∧
        Made parse l.format e.factory m) ∧
      ∀ s c script file form, s.settings {} = .ok c → c.recursionLimit ≤ depthLimit →
        readScript s s.files script = .ok t →
        s.tell ("[blue]File:[/blue] " ++ script) = .ok file →
        s.tell ("[blue]Format:[/blue] " ++ l.format.text) = .ok form →
          ((listModules s script).lines =
              [.text file, .text form, .text "Modules", .row ["Id", "Name", "Entry"]] ++
                (l.ids.map (moduleRow l r.names)).map .row ↔
            ∀ id ∈ l.ids, s.tell (spelled id) = .ok (spelled id) ∧
              s.tell (listedName r.names id) = .ok (listedName r.names id)) := by
  obtain ⟨l, r, hl, hr, hcomplete, hmade⟩ := exists_complete h
  obtain ⟨table, rows, htable, hrows, htabulates⟩ := exists_table hl
  refine ⟨table, rows, l, r, htable, hrows, hl, htabulates, hr, hcomplete, fun m hm => ?_, ?_⟩
  · obtain ⟨name, e, he, hm⟩ := hmade m hm
    exact ⟨e, he, made_of_moduleOf hm⟩
  · intro s c script file form hc hd ht hfile hform
    exact lines_listModules_iff hc hd ht hl hr hfile hform

def doubledBundle : Tree :=
  let evaluated := Form.expressionStatement
    (Form.callExpression (Form.identifier "eval") [Form.literal (.text "e(1)") "\"e(1)\""])
  bundle [.number (.ofInt 4), .number (.ofInt 1)]
    [(.number (.ofInt 1), [], [("a", .number (.ofInt 5))]), (.number (.ofInt 2), [], []),
      (.bool true, [Form.emptyStatement, evaluated], [("./b", .text "b")]), (.text "b", [], [])]

theorem modules_doubledBundle : (split Script.parse doubledBundle).modules.map
    (fun m => (m.name, (m.factory.nodes.filter (·.isKind "Identifier")).map (·.name))) =
      [("/main2", ["e", "e"]), ("/b", ["e"]), ("/2", ["e"])] := by
  decide +kernel

theorem numbered_doubledBundle : ∀ m ∈ (split Script.parse doubledBundle).modules,
    m.factory.Numbered := by
  have hparts : ∀ m ∈ (split Script.parse doubledBundle).modules, m.factory.distinct = true ∧
      m.factory.tags.Nodup ∧ 0 ∉ m.factory.tags ∧ ∀ o ∈ m.factory.objects, o.2.fits = true := by
    decide +kernel
  exact fun m hm => ⟨(hparts m hm).1, (hparts m hm).2.1, (hparts m hm).2.2.1, (hparts m hm).2.2.2⟩

theorem usualNames_doubledBundle : ∀ m ∈ (split Script.parse doubledBundle).modules,
    (∀ e ∈ Format.browserify.usualNames m.factory, e.1.isKind "Identifier" = true) ∧
      ((Format.browserify.usualNames m.factory).map (·.1.name)).Nodup := by
  decide +kernel

theorem unobstructed_doubledBundle : ∀ m ∈ (split Script.parse doubledBundle).modules,
    Unobstructed (Scope.ofTree m.factory) m.path (Format.browserify.usualNames m.factory) := by
  have hothers : ∀ m ∈ (split Script.parse doubledBundle).modules,
      ∀ q ∈ (Scope.ofTree m.factory).paths, ∀ c ∈ (Scope.ofTree m.factory).at? q,
        ∀ v ∈ c.declared, ∀ e ∈ Format.browserify.usualNames m.factory, v.name ≠ e.2 := by
    decide +kernel
  have hundeclared : ∀ m ∈ (split Script.parse doubledBundle).modules,
      ∀ c ∈ (Scope.ofTree m.factory).scopes, ∀ v ∈ c.declared,
        ∀ e ∈ Format.browserify.usualNames m.factory, v.name ≠ between e.2 := by
    decide +kernel
  have hunmentioned : ∀ m ∈ (split Script.parse doubledBundle).modules,
      ∀ o ∈ (Scope.ofTree m.factory).through,
        ∀ e ∈ Format.browserify.usualNames m.factory, o.name ≠ between e.2 := by
    decide +kernel
  exact fun m hm =>
    ⟨fun q c hc v hv e he hn => absurd hn (hothers m hm q (Scope.mem_paths hc) c hc v hv e he),
      hundeclared m hm, hunmentioned m hm⟩

theorem required_doubledBundle : ∀ m ∈ (split Script.parse doubledBundle).modules,
    ∀ s ∈ (Scope.ofTree m.factory).at? m.path,
      ∀ n ∈ m.factory.nodes.filter (·.isKind "Identifier"),
        ∃ e ∈ Format.browserify.usualNames m.factory, e.2 = "require" ∧
          ∃ v ∈ s.declared, e.1.tag ∈ v.identifiers ∧ n.tag ∈ v.tags := by
  decide +kernel

theorem split_complete_doubled : (split Script.parse doubledBundle).failure = none ∧
    ∃ l r, Layout.ofTree doubledBundle = .ok l ∧ resolve l = .ok r ∧
      Complete l r.names (split Script.parse doubledBundle).modules ∧
      ∃ m ∈ (split Script.parse doubledBundle).modules, ∃ e, l.modules.get? m.id = some e ∧
        Made Script.parse .browserify e.factory m ∧ m.name = "/main2" ∧
        (m.factory.nodes.filter (·.isKind "Identifier")).map (·.name) = ["e", "e"] ∧
        ∀ n ∈ m.factory.nodes.filter (·.isKind "Identifier"),
          m.names[n.tag]? = some "require" := by
  have h : (split Script.parse doubledBundle).failure = none := by decide +kernel
  obtain ⟨_, _, l, r, htable, -, hl, -, hr, hcomplete, hmade, -⟩ := split_complete h
  obtain ⟨m, ms, hms, hm, -⟩ := List.map_eq_cons_iff.mp modules_doubledBundle
  obtain ⟨hname, hnames⟩ := Prod.mk.inj hm
  have hmem : m ∈ (split Script.parse doubledBundle).modules := hms ▸ List.mem_cons_self
  obtain ⟨e, he, hmade⟩ := hmade m hmem
  have hformat : l.format = .browserify := by
    have hf : (tableOf? doubledBundle).map (·.1) = some .browserify := by decide +kernel
    rw [htable] at hf
    exact Option.some.inj hf
  rw [hformat] at hmade
  obtain ⟨hkinds, hdistinct⟩ := usualNames_doubledBundle m hmem
  obtain ⟨s, hs, hsubstituted⟩ := hmade.substituted (numbered_doubledBundle m hmem) hkinds hdistinct
    (unobstructed_doubledBundle m hmem)
  exact ⟨h, l, r, hl, hr, hcomplete, m, hmem, e, he, hmade, hname, hnames, fun n hn =>
    (hsubstituted.names _ _).mpr (required_doubledBundle m hmem s hs n hn)⟩

def markedScript : Surroundings where
  files :=
    { contents := [(["work".toList, "b.js".toList],
        .text "(function()\x7b\x7d)()(\x7b\"[id]\":[function()\x7b\x7d,\x7b\x7d]\x7d,\x7b\x7d,[])")]
      directories := [["work".toList]] }
  directory := "/work"
  stamp := ""
  configure := fun given => Settings.read ⟨given, [], []⟩
  parse := Script.parse
  print := fun _ _ => ""
  tell := Text.shown

theorem marked_not_listed :
    (splitScript markedScript markedScript.files "b.js").toOption.map
      (·.map fun m => (spelled m.id, m.name)) = some [("[id]", "/[id]")] ∧
    (listModules markedScript "b.js").lines = [.text "File: b.js", .text "Format: browserify",
      .text "Modules", .row ["Id", "Name", "Entry"], .row ["", "/", ""]] := by
  decide +kernel

end Legible.Bundle
