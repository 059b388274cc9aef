import Ltfs.ConfigFile

/-!
# What a configuration file means

* `Settings` — what the directives of a file are applied to: maps for plugins and defaults, and the
  lines of the options.
* `directiveOf` — a line as a directive, by its words.
* `Represents` — the lists of the code for the settings.
* `configFileParse_represents` — the code goes through the same settings as the directives, with the
  same result.
* `optionEntry_iff` — when an option gets the text behind its category.
* `pluginLibrary_iff` — when a plugin gets the library behind its name.
* `config_file_load_iff` — when a configuration is loaded as its directives say.
-/

namespace Ltfs.Config

open Lib.Include (Effect Related SameResult runFile Ends CalledBy Names)

/-! ## Settings and directives -/

/-- What a configuration is for. A plugin is kept with what stands behind its name and one
separator, an option with what stands behind the directive and one separator. -/
structure Settings where
  /-- The plugins that are set, in the order in which they have come. -/
  plugins : List (Word × Word)
  plugin : Word → Word → Option Word
  default : Word → Option Word
  options : List Word
  /-- A plugin has been set again while it was not the last one. -/
  reset : Bool

def Settings.empty : Settings := ⟨[], fun _ _ => none, fun _ => none, [], false⟩

/-- A directive with its arguments. -/
inductive Directive where
  | plugin (type name rest : Word)
  | default (type name : Word)
  | removePlugin (type name : Word)
  | removeDefault (type : Word)
  | option (rest : Word)
  | include (path : Word) (lenient : Bool)
  | other

/-- The words of a line. -/
def words (s : Word) : List Word := (s.splitOnP isSpace).filter (· ≠ [])

/-- The line behind a word and one separator. -/
def behindWord (s : Word) : Word := ((s.dropWhile isSpace).dropWhile (! isSpace ·)).drop 1

/-- What a line says, if it is well formed. Comments and trailing blanks have been taken away. -/
def directiveOf (line : Word) : Option Directive :=
  match words line with
  | [] => some .other
  | directive :: args =>
    if directive = "plugin".toList then
      match args with
      | type :: name :: _ :: _ =>
        some (.plugin type name (behindWord (behindWord (behindWord line))))
      | _ => none
    else if directive = "default".toList then
      match args with
      | [type, name] => some (.default type name)
      | _ => none
    else if directive = "option".toList then
      match args with
      | _ :: _ :: _ => some (.option (behindWord line))
      | _ => none
    else if directive = "include".toList then
      match args with
      | [path] => some (.include path false)
      | _ => none
    else if directive = "include_noerror".toList then
      match args with
      | [path] => some (.include path true)
      | _ => none
    else if directive = "-default".toList then
      match args with
      | [type] => some (.removeDefault type)
      | _ => none
    else if directive = "-plugin".toList then
      match args with
      | [type, name] => some (.removePlugin type name)
      | _ => none
    else some .other

/-- A directive is applied: what was set before is replaced, and what is removed is gone. -/
def Directive.apply (s : Settings) : Directive → Effect Word Settings
  | .plugin type name rest =>
    .next { s with
      plugins := if s.plugin type name = none then s.plugins ++ [(type, name)] else s.plugins
      plugin := fun t n => if t = type ∧ n = name then some rest else s.plugin t n
      reset := s.reset ||
        (s.plugin type name ≠ none && s.plugins.getLast? ≠ some (type, name)) }
  | .default type name =>
    .next { s with default := fun t => if t = type then some name else s.default t }
  | .removePlugin type name =>
    .next { s with
      plugins := s.plugins.filter (· ≠ (type, name))
      plugin := fun t n => if t = type ∧ n = name then none else s.plugin t n }
  | .removeDefault type =>
    if s.default type = none then .stop (-ltfsConfigInvalid) s
    else .next { s with default := fun t => if t = type then none else s.default t }
  | .option rest => .next { s with options := s.options ++ [rest] }
  | .include path lenient => .descend path lenient
  | .other => .next s

/-- What a line does to the settings. -/
def settingsLine (line : Word) (s : Settings) : Effect Word Settings :=
  if line.length = lineSize - 1 then .stop (-ltfsConfigInvalid) s
  else
    match directiveOf (stripLine line) with
    | none => .stop (-ltfsConfigInvalid) s
    | some directive => directive.apply s

/-- All defaults are plugins that are there, or none. -/
def Settings.Valid (s : Settings) : Prop :=
  ∀ type name, s.default type = some name → name = "none".toList ∨ s.plugin type name ≠ none

/-! ## Tokens and words -/

section Words

theorem words_skip {s : Word} : words s = words (s.dropWhile isSpace) := by
  induction s with
  | nil => rfl
  | cons c s ih =>
    by_cases hc : isSpace c = true
    · rw [List.dropWhile_cons_of_pos hc, ← ih]
      unfold words
      rw [List.splitOnP_cons_eq_if_modifyHead, if_pos hc, List.filter_cons_of_neg (by simp)]
    · rw [List.dropWhile_cons_of_neg hc]

/-- A word, up to the next separator. -/
theorem splitOnP_word (s : Word) :
    s.splitOnP isSpace = s.takeWhile (! isSpace ·) ::
      match s.dropWhile (! isSpace ·) with
      | [] => []
      | _ :: rest => rest.splitOnP isSpace := by
  induction s with
  | nil => rfl
  | cons c s ih =>
    by_cases hc : isSpace c = true
    · rw [List.splitOnP_cons_eq_if_modifyHead, if_pos hc, List.takeWhile_cons_of_neg (by simp [hc]),
        List.dropWhile_cons_of_neg (by simp [hc])]
    · rw [List.splitOnP_cons_eq_if_modifyHead, if_neg hc, List.takeWhile_cons_of_pos (by simp [hc]),
        List.dropWhile_cons_of_pos (by simp [hc]), ih]
      rfl

/-- Tokens are the words of a line. -/
theorem words_strtok (s : Word) :
    words s = match strtok isSpace s with
      | none => []
      | some tok => tok.text :: words tok.rest := by
  rw [words_skip]
  unfold strtok
  cases hs : s.dropWhile isSpace with
  | nil => rfl
  | cons c s' =>
    have hc : isSpace c = false := by
      have h := List.head_dropWhile_not isSpace (l := s) (by rw [hs]; simp)
      simpa [hs] using h
    dsimp only
    have hword : (c :: s').takeWhile (! isSpace ·) ≠ [] := by
      rw [List.takeWhile_cons_of_pos (by simp [hc])]
      simp
    unfold words
    rw [splitOnP_word, List.filter_cons_of_pos (by simpa using hword)]
    congr 1
    cases (c :: s').dropWhile (! isSpace ·) with
    | nil => rfl
    | cons d rest => rfl

/-- A string in front of which a token is cut off. -/
theorem strtok_split {delim : Char → Bool} {s : Word} {tok : Token} (h : strtok delim s = some tok) :
    tok.skipped = (s.takeWhile delim).length ∧
      ∃ tail, s = s.takeWhile delim ++ (tok.text ++ tail) ∧ tok.rest = tail.drop 1 ∧
        ∀ c tail', tail = c :: tail' → delim c = true := by
  have hsplit := List.takeWhile_append_dropWhile (p := delim) (l := s)
  unfold strtok at h
  cases hs : s.dropWhile delim with
  | nil =>
    rw [hs] at h
    cases h
  | cons c s' =>
    rw [hs] at h hsplit
    cases h
    refine ⟨rfl, (c :: s').dropWhile (! delim ·), ?_, rfl, ?_⟩
    · rw [List.takeWhile_append_dropWhile, hsplit]
    · intro b tail' hb
      have hhead := List.head_dropWhile_not (! delim ·) (l := c :: s') (by rw [hb]; simp)
      simpa [hb] using hhead

/-- The pointer behind the token is where the next one is looked for. -/
theorem strtok_drop {delim : Char → Bool} {s : Word} {tok : Token} (h : strtok delim s = some tok) :
    s.drop (tok.skipped + tok.text.length + 1) = tok.rest := by
  obtain ⟨hskipped, tail, hs, hrest, -⟩ := strtok_split h
  have hlength : tok.skipped + tok.text.length + 1
      = (s.takeWhile delim ++ tok.text).length + 1 := by
    rw [hskipped, List.length_append]
  rw [hlength, hrest]
  nth_rewrite 2 [hs]
  rw [← List.append_assoc, List.drop_length_add_append]

/-- What is left behind a token. -/
theorem strtok_rest {s : Word} {tok : Token} (h : strtok isSpace s = some tok) :
    tok.rest = behindWord s := by
  unfold strtok at h
  unfold behindWord
  cases hs : s.dropWhile isSpace with
  | nil =>
    rw [hs] at h
    cases h
  | cons c s' =>
    rw [hs] at h
    cases h
    rfl

end Words

/-! ## Finding entries -/

section Find

variable {α : Type} {key other : α → Bool} {f : α → α} (l : List α)

/-- The first entry with a key is found with its new value. -/
theorem find?_replace (hkey : ∀ e, key e = true → key (f e) = true) :
    (l.map fun e => if key e then f e else e).find? key = (l.find? key).map f := by
  induction l with
  | nil => rfl
  | cons e l ih =>
    rw [List.map_cons]
    by_cases he : key e = true
    · rw [if_pos he, List.find?_cons_of_pos (hkey e he), List.find?_cons_of_pos he]
      rfl
    · rw [if_neg he, List.find?_cons_of_neg he, List.find?_cons_of_neg he, ih]

/-- What is found with another key is not affected. -/
theorem find?_replace_other
    (hother : ∀ e, key e = true → ¬ other e = true ∧ ¬ other (f e) = true) :
    (l.map fun e => if key e then f e else e).find? other = l.find? other := by
  induction l with
  | nil => rfl
  | cons e l ih =>
    rw [List.map_cons]
    by_cases he : key e = true
    · obtain ⟨hold, hnew⟩ := hother e he
      rw [if_pos he, List.find?_cons_of_neg hnew, List.find?_cons_of_neg hold, ih]
    · rw [if_neg he]
      by_cases ho : other e = true
      · rw [List.find?_cons_of_pos ho, List.find?_cons_of_pos ho]
      · rw [List.find?_cons_of_neg ho, List.find?_cons_of_neg ho, ih]

/-- An entry with a removed key is not found any more. -/
theorem find?_remove : (l.filter (! key ·)).find? key = none := by
  rw [List.find?_eq_none]
  intro e he
  have h := (List.mem_filter.mp he).2
  simpa using h

theorem find?_remove_other (hother : ∀ e, key e = true → ¬ other e = true) :
    (l.filter (! key ·)).find? other = l.find? other := by
  induction l with
  | nil => rfl
  | cons e l ih =>
    by_cases he : key e = true
    · rw [List.filter_cons_of_neg (by simp [he]), List.find?_cons_of_neg (hother e he), ih]
    · rw [List.filter_cons_of_pos (by simp [he])]
      by_cases ho : other e = true
      · rw [List.find?_cons_of_pos ho, List.find?_cons_of_pos ho]
      · rw [List.find?_cons_of_neg ho, List.find?_cons_of_neg ho, ih]

/-- A new entry is found with its own key, and with no other. -/
theorem find?_concat (e : α) (hnone : l.find? key = none) :
    (l ++ [e]).find? key = if key e then some e else none := by
  rw [List.find?_append, hnone, Option.none_or]
  by_cases he : key e = true
  · rw [if_pos he, List.find?_cons_of_pos he]
  · rw [if_neg he, List.find?_cons_of_neg he, List.find?_nil]

theorem find?_concat_other (e : α) (hother : ¬ other e = true) :
    (l ++ [e]).find? other = l.find? other := by
  rw [List.find?_append, List.find?_cons_of_neg hother, List.find?_nil, Option.or_none]

end Find

/-! ## The lists of the code -/

section Represents

/-- The lists of the code hold the settings, with libraries and options as the code cuts them
out. -/
structure Represents (c : ConfigFile) (s : Settings) : Prop where
  plugins : (c.plugins.map fun e => (e.type, e.name)) = s.plugins
  once : s.plugins.Nodup
  plugin : ∀ type name,
    (configFileGetLib type name c).map some = (s.plugin type name).map pluginLibrary
  wildRead : c.wildRead = s.reset
  default : ∀ type, configFileGetDefaultPlugin type c = s.default type
  distinct : c.defaultPlugins.Pairwise (·.type ≠ ·.type)
  options : c.mountOptions.map some
    = s.options.map fun rest => configFileParseOption rest rest

theorem represents_empty : Represents ConfigFile.empty Settings.empty where
  plugins := rfl
  once := .nil
  plugin _ _ := rfl
  wildRead := rfl
  default _ := rfl
  distinct := .nil
  options := rfl

variable {c : ConfigFile} {s : Settings}

theorem getDefault_none (type : Word) :
    configFileGetDefaultPlugin type c = none ↔ ¬ c.defaultPlugins.any (·.type = type) = true := by
  unfold configFileGetDefaultPlugin
  rw [Option.map_eq_none_iff, List.find?_eq_none, Bool.not_eq_true, List.any_eq_false]

theorem getLib_none (type name : Word) :
    configFileGetLib type name c = none ↔
      ¬ (c.plugins.any fun e => e.type = type ∧ e.name = name) = true := by
  unfold configFileGetLib
  rw [Option.map_eq_none_iff, List.find?_eq_none, Bool.not_eq_true, List.any_eq_false]

theorem Represents.plugin_none (h : Represents c s) (type name : Word) :
    configFileGetLib type name c = none ↔ s.plugin type name = none := by
  have hplugin := h.plugin type name
  constructor
  · intro hnone
    rw [hnone, Option.map_none] at hplugin
    exact Option.map_eq_none_iff.mp hplugin.symm
  · intro hnone
    rw [hnone, Option.map_none] at hplugin
    exact Option.map_eq_none_iff.mp hplugin

/-- The entry of a plugin is followed by others unless it is the last one. -/
theorem Represents.isFollowed_eq (h : Represents c s) {type name : Word}
    (hfound : (c.plugins.any fun e => e.type = type ∧ e.name = name) = true) :
    isFollowed type name c.plugins = decide (s.plugins.getLast? ≠ some (type, name)) := by
  have honce := h.once
  rw [← h.plugins] at honce ⊢
  generalize c.plugins = l at hfound honce
  induction l with
  | nil => cases hfound
  | cons e l ih =>
    rw [List.map_cons, List.nodup_cons] at honce
    by_cases he : e.type = type ∧ e.name = name
    · -- the entry itself: what follows has other names
      obtain ⟨rfl, rfl⟩ := he
      have hfollowed : isFollowed e.type e.name (e :: l) = !l.isEmpty := by simp [isFollowed]
      rw [hfollowed, List.map_cons]
      cases l with
      | nil => simp
      | cons e' l =>
        have hlast : ((e.type, e.name) :: (e' :: l).map fun e => (e.type, e.name)).getLast?
            ≠ some (e.type, e.name) := by
          rw [List.map_cons, List.getLast?_cons_cons]
          intro heq
          exact honce.1 (List.mem_of_getLast? heq)
        simpa using hlast
    · have hfollowed : isFollowed type name (e :: l) = isFollowed type name l := by
        unfold isFollowed
        rw [List.dropWhile_cons_of_pos (by rw [decide_eq_false he]; rfl)]
      rw [List.any_cons, decide_eq_false he, Bool.false_or] at hfound
      rw [hfollowed, ih hfound honce.2, List.map_cons]
      cases l with
      | nil => cases hfound
      | cons e' l => rw [List.map_cons, List.getLast?_cons_cons]

/-- "Store the default": in the place of the one there is, or as a new one. -/
theorem default_stored (h : Represents c s) (type name : Word) :
    Represents
      (if c.defaultPlugins.any (·.type = type) then
        { c with
          defaultPlugins := c.defaultPlugins.map fun e => if e.type = type then ⟨type, name⟩ else e }
      else { c with defaultPlugins := c.defaultPlugins ++ [⟨type, name⟩] })
      { s with default := fun t => if t = type then some name else s.default t } := by
  have hkey : ∀ e : DefaultEntry, decide (e.type = type) = true → e.type = type :=
    fun _ he => of_decide_eq_true he
  have hcond : ∀ e : DefaultEntry, (if e.type = type then (⟨type, name⟩ : DefaultEntry) else e)
      = if decide (e.type = type) = true then ⟨type, name⟩ else e := by
    intro e
    by_cases he : e.type = type
    · rw [if_pos he, if_pos (decide_eq_true he)]
    · rw [if_neg he, if_neg (by simpa using he)]
  split
  · rename_i hfound
    refine ⟨h.plugins, h.once, h.plugin, h.wildRead, ?_, ?_, h.options⟩
    · intro t
      unfold configFileGetDefaultPlugin
      simp only [hcond]
      by_cases ht : t = type
      · subst ht
        rw [if_pos rfl, find?_replace c.defaultPlugins (fun _ _ => decide_eq_true rfl)]
        cases hfind : c.defaultPlugins.find? (fun e => decide (e.type = t)) with
        | none =>
          have hnone := (getDefault_none (c := c) t).mp
            (by unfold configFileGetDefaultPlugin; rw [hfind]; rfl)
          exact absurd hfound hnone
        | some e => rfl
      · rw [if_neg ht, ← h.default t]
        unfold configFileGetDefaultPlugin
        rw [find?_replace_other c.defaultPlugins]
        intro e he
        have he := hkey e he
        constructor
        · simpa [he] using fun h => ht h.symm
        · simpa using fun h => ht h.symm
    · -- the types stay the same
      have htype : ∀ e : DefaultEntry,
          (if e.type = type then (⟨type, name⟩ : DefaultEntry) else e).type = e.type := by
        intro e
        split
        · rename_i he
          exact he.symm
        · rfl
      rw [List.pairwise_map]
      simp only [htype]
      exact h.distinct
  · rename_i hfound
    have hnone := (getDefault_none (c := c) type).mpr hfound
    refine ⟨h.plugins, h.once, h.plugin, h.wildRead, ?_, ?_, h.options⟩
    · intro t
      unfold configFileGetDefaultPlugin at hnone ⊢
      dsimp only
      by_cases ht : t = type
      · subst ht
        rw [if_pos rfl, find?_concat _ _ (Option.map_eq_none_iff.mp hnone),
          if_pos (decide_eq_true rfl)]
        rfl
      · rw [if_neg ht, ← h.default t, find?_concat_other _ _ (by simpa using fun h => ht h.symm)]
        rfl
    · rw [List.pairwise_append]
      refine ⟨h.distinct, List.pairwise_singleton _ _, ?_⟩
      intro e he e' he' heq
      rw [List.mem_singleton] at he'
      rw [he'] at heq
      exact hfound (List.any_eq_true.mpr ⟨e, he, decide_eq_true heq⟩)

/-- A plugin that is set again has the new library, the others keep theirs. -/
theorem getLib_replaced {type name library : Word}
    (hfound : (c.plugins.any fun e => e.type = type ∧ e.name = name) = true) (wildRead : Bool)
    (t n : Word) :
    configFileGetLib t n { c with
      plugins := c.plugins.map fun e =>
        if e.type = type ∧ e.name = name then { e with library } else e
      wildRead }
      = if t = type ∧ n = name then some library else configFileGetLib t n c := by
  have hcond : ∀ e : PluginEntry,
      (if e.type = type ∧ e.name = name then { e with library } else e)
        = if decide (e.type = type ∧ e.name = name) = true then { e with library }
          else e := by
    intro e
    by_cases he : e.type = type ∧ e.name = name
    · rw [if_pos he, if_pos (decide_eq_true he)]
    · rw [if_neg he, if_neg (by simpa using he)]
  unfold configFileGetLib
  simp only [hcond]
  by_cases ht : t = type ∧ n = name
  · obtain ⟨rfl, rfl⟩ := ht
    rw [if_pos ⟨rfl, rfl⟩, find?_replace (f := fun e => { e with library }) c.plugins
      (fun e he => he)]
    cases hfind : c.plugins.find? (fun e => decide (e.type = t ∧ e.name = n)) with
    | none =>
      have hnone := (getLib_none (c := c) t n).mp
        (by unfold configFileGetLib; rw [hfind]; rfl)
      exact absurd hfound hnone
    | some e => rfl
  · rw [if_neg ht, find?_replace_other c.plugins]
    intro e he
    obtain ⟨htype, hname⟩ := of_decide_eq_true he
    have hother : ¬ decide (e.type = t ∧ e.name = n) = true := by
      intro heq
      obtain ⟨htype', hname'⟩ := of_decide_eq_true heq
      exact ht ⟨htype'.symm.trans htype, hname'.symm.trans hname⟩
    exact ⟨hother, hother⟩

theorem getLib_added {type name library : Word}
    (hnone : configFileGetLib type name c = none) (t n : Word) :
    configFileGetLib t n { c with plugins := c.plugins ++ [⟨type, name, library⟩] }
      = if t = type ∧ n = name then some library else configFileGetLib t n c := by
  unfold configFileGetLib at hnone ⊢
  dsimp only
  by_cases ht : t = type ∧ n = name
  · obtain ⟨rfl, rfl⟩ := ht
    rw [if_pos ⟨rfl, rfl⟩, find?_concat _ _ (Option.map_eq_none_iff.mp hnone),
      if_pos (decide_eq_true ⟨rfl, rfl⟩)]
    rfl
  · rw [if_neg ht, find?_concat_other]
    intro heq
    obtain ⟨htype, hname⟩ := of_decide_eq_true heq
    exact ht ⟨htype.symm, hname.symm⟩

/-- What is looked up after a plugin has been set, in the file and in its meaning. -/
theorem Represents.plugin_set (h : Represents c s) {type name rest library : Word}
    (hlibrary : pluginLibrary rest = some library) (t n : Word) :
    (if t = type ∧ n = name then some library else configFileGetLib t n c).map some
      = (if t = type ∧ n = name then some rest else s.plugin t n).map pluginLibrary := by
  split
  · rw [@Option.map_some _ _ rest pluginLibrary, hlibrary]
    rfl
  · exact h.plugin t n

/-- "Store the plugin": in the place of the one there is, or as a new one. -/
theorem plugin_stored (h : Represents c s) (type name : Word) {rest library : Word}
    (hlibrary : pluginLibrary rest = some library) :
    Related Represents
      (directiveEffect (if c.plugins.any fun e => e.type = type ∧ e.name = name then
        (0, { c with
          plugins := c.plugins.map fun e =>
            if e.type = type ∧ e.name = name then { e with library } else e
          wildRead := c.wildRead || isFollowed type name c.plugins })
      else (0, { c with plugins := c.plugins ++ [⟨type, name, library⟩] })))
      ((Directive.plugin type name rest).apply s) := by
  have hset := (getLib_none (c := c) type name).symm.trans (h.plugin_none type name)
  split
  · rename_i hfound
    have hsome : s.plugin type name ≠ none := fun hnone => hset.mpr hnone hfound
    refine .next ⟨?_, ?_, ?_, ?_, h.default, h.distinct, h.options⟩
    · dsimp only
      rw [if_neg hsome, ← h.plugins, List.map_map]
      refine List.map_congr_left fun e _ => ?_
      dsimp only [Function.comp_apply]
      split
      · rfl
      · rfl
    · dsimp only
      rw [if_neg hsome]
      exact h.once
    · intro t n
      rw [getLib_replaced hfound]
      exact h.plugin_set hlibrary t n
    · dsimp only
      rw [h.wildRead, h.isFollowed_eq hfound, decide_eq_true hsome, Bool.true_and]
  · rename_i hfound
    have hnone : s.plugin type name = none := hset.mp hfound
    refine .next ⟨?_, ?_, ?_, ?_, h.default, h.distinct, h.options⟩
    · dsimp only
      rw [if_pos hnone, List.map_append, h.plugins]
      rfl
    · dsimp only
      rw [if_pos hnone, List.nodup_append]
      refine ⟨h.once, List.nodup_singleton _, ?_⟩
      intro key hmem key' hmem' heq
      rw [List.mem_singleton] at hmem'
      rw [← h.plugins, List.mem_map] at hmem
      obtain ⟨e, he, rfl⟩ := hmem
      rw [hmem', Prod.mk.injEq] at heq
      exact hfound (List.any_eq_true.mpr ⟨e, he, decide_eq_true heq⟩)
    · intro t n
      rw [getLib_added ((getLib_none (c := c) type name).mpr hfound)]
      exact h.plugin_set hlibrary t n
    · dsimp only
      rw [h.wildRead, hnone]
      simp

theorem default_removed (h : Represents c s) (type : Word) :
    Represents { c with defaultPlugins := c.defaultPlugins.filter (·.type ≠ type) }
      { s with default := fun t => if t = type then none else s.default t } := by
  have hfilter : c.defaultPlugins.filter (·.type ≠ type)
      = c.defaultPlugins.filter fun e => ! decide (e.type = type) := by
    congr 1
    funext e
    simp
  refine ⟨h.plugins, h.once, h.plugin, h.wildRead, ?_, h.distinct.filter _, h.options⟩
  intro t
  unfold configFileGetDefaultPlugin
  dsimp only
  rw [hfilter]
  by_cases ht : t = type
  · subst ht
    rw [if_pos rfl, find?_remove]
    rfl
  · rw [if_neg ht, ← h.default t, find?_remove_other]
    · rfl
    · intro e he
      simpa [of_decide_eq_true he] using fun h => ht h.symm

theorem plugin_removed (h : Represents c s) (type name : Word) :
    Represents { c with plugins := c.plugins.filter fun e => ! (e.type = type ∧ e.name = name) }
      { s with
        plugins := s.plugins.filter (· ≠ (type, name))
        plugin := fun t n => if t = type ∧ n = name then none else s.plugin t n } := by
  refine ⟨?_, h.once.filter _, ?_, h.wildRead, h.default, h.distinct, h.options⟩
  · dsimp only
    rw [← h.plugins, List.filter_map]
    congr 1
    refine List.filter_congr fun e _ => ?_
    simp [Prod.mk.injEq]
  · intro t n
    unfold configFileGetLib
    dsimp only
    by_cases ht : t = type ∧ n = name
    · obtain ⟨rfl, rfl⟩ := ht
      rw [if_pos ⟨rfl, rfl⟩, find?_remove]
      rfl
    · rw [if_neg ht, ← h.plugin t n, find?_remove_other]
      · rfl
      · intro e he heq
        obtain ⟨htype, hname⟩ := of_decide_eq_true he
        obtain ⟨htype', hname'⟩ := of_decide_eq_true heq
        exact ht ⟨htype'.symm.trans htype, hname'.symm.trans hname⟩

theorem option_added (h : Represents c s) {rest : Word} {entry : OptionEntry}
    (hentry : configFileParseOption rest rest = some entry) :
    Represents { c with mountOptions := c.mountOptions ++ [entry] }
      { s with options := s.options ++ [rest] } := by
  refine ⟨h.plugins, h.once, h.plugin, h.wildRead, h.default, h.distinct, ?_⟩
  dsimp only
  rw [List.map_append, List.map_append, h.options]
  simp [hentry]

/-! ## A line -/

theorem directiveEffect_invalid (c : ConfigFile) :
    directiveEffect (-ltfsConfigInvalid, c) = .stop (-ltfsConfigInvalid) c := rfl

/-- The effect of a directive that may be malformed. -/
def applied (s : Settings) (directive : Option Directive) : Effect Word Settings :=
  match directive with
  | none => .stop (-ltfsConfigInvalid) s
  | some directive => directive.apply s

theorem configFileParseDefault_related (h : Represents c s) (saveptr : Word) :
    Related Represents (directiveEffect (configFileParseDefault saveptr c))
      (applied s (match words saveptr with
        | [type, name] => some (.default type name)
        | _ => none)) := by
  unfold configFileParseDefault
  rw [words_strtok]
  cases strtok isSpace saveptr with
  | none => exact .stop h
  | some type =>
    dsimp only
    rw [words_strtok]
    cases strtok isSpace type.rest with
    | none => exact .stop h
    | some name =>
      dsimp only
      rw [words_strtok]
      cases strtok isSpace name.rest with
      | some garbage => exact .stop h
      | none =>
        have hstored := default_stored h type.text name.text
        dsimp only
        split
        · rename_i hfound
          rw [if_pos hfound] at hstored
          exact .next hstored
        · rename_i hfound
          rw [if_neg hfound] at hstored
          exact .next hstored

theorem configFileRemoveDefault_related (h : Represents c s) (saveptr : Word) :
    Related Represents (directiveEffect (configFileRemoveDefault saveptr c))
      (applied s (match words saveptr with
        | [type] => some (.removeDefault type)
        | _ => none)) := by
  unfold configFileRemoveDefault
  rw [words_strtok]
  cases strtok isSpace saveptr with
  | none => exact .stop h
  | some type =>
    dsimp only
    rw [words_strtok]
    cases strtok isSpace type.rest with
    | some garbage => exact .stop h
    | none =>
      have hremoved := default_removed h type.text
      dsimp only [applied, Directive.apply]
      by_cases hfound : c.defaultPlugins.any (·.type = type.text) = true
      · have hsome : ¬ s.default type.text = none := by
          rw [← h.default, getDefault_none, not_not]
          exact hfound
        rw [if_pos hfound, if_neg hsome]
        exact .next hremoved
      · have hnone : s.default type.text = none := by
          rw [← h.default, getDefault_none]
          exact hfound
        rw [if_neg hfound, if_pos hnone, directiveEffect_invalid]
        -- nothing has been removed
        have hsame : c.defaultPlugins.filter (·.type ≠ type.text) = c.defaultPlugins := by
          rw [List.filter_eq_self]
          intro e he
          rw [List.any_eq_true] at hfound
          exact decide_eq_true fun heq => hfound ⟨e, he, decide_eq_true heq⟩
        rw [hsame]
        exact .stop h

theorem configFileRemovePlugin_related (h : Represents c s) (saveptr : Word) :
    Related Represents (directiveEffect (configFileRemovePlugin saveptr c))
      (applied s (match words saveptr with
        | [type, name] => some (.removePlugin type name)
        | _ => none)) := by
  unfold configFileRemovePlugin
  rw [words_strtok]
  cases strtok isSpace saveptr with
  | none => exact .stop h
  | some type =>
    dsimp only
    rw [words_strtok]
    cases strtok isSpace type.rest with
    | none => exact .stop h
    | some name =>
      dsimp only
      rw [words_strtok]
      cases strtok isSpace name.rest with
      | some garbage => exact .stop h
      | none => exact .next (plugin_removed h type.text name.text)

/-- The string ends in a word. -/
def Stripped (s : Word) : Prop := ∀ c, s.getLast? = some c → isSpace c = false

theorem stripLine_stripped (line : Word) : Stripped (stripLine line) := by
  intro c hc
  have hne : stripLine line ≠ [] := by
    intro hnil
    rw [hnil] at hc
    cases hc
  have hlast := List.rdropWhile_last_not isSpace (line.takeWhile (· ≠ '#')) hne
  rw [List.getLast?_eq_getLast_of_ne_nil hne, Option.some.injEq] at hc
  rw [← hc]
  exact Bool.eq_false_iff.mpr hlast

theorem Stripped.rest {s : Word} (h : Stripped s) {tok : Token} (htok : strtok isSpace s = some tok) :
    Stripped tok.rest := by
  intro c hc
  rw [← strtok_drop htok, List.getLast?_drop] at hc
  split at hc
  · cases hc
  · exact h c hc

/-- There is a library exactly if there is another word. -/
theorem pluginLibrary_none {rest : Word} (h : Stripped rest) :
    pluginLibrary rest = none ↔ words rest = [] := by
  have hdrop : ∀ delim : Char → Bool, (∀ c, isSpace c = false → delim c = false) →
      (strtok delim rest = none ↔ rest = []) := by
    intro delim hdelim
    unfold strtok
    cases hs : rest.dropWhile delim with
    | nil =>
      refine iff_of_true rfl ?_
      by_contra hne
      have hall := List.dropWhile_eq_nil_iff.mp hs _ (List.getLast_mem hne)
      have hlast := h _ (List.getLast?_eq_getLast_of_ne_nil hne)
      rw [hdelim _ hlast] at hall
      cases hall
    | cons c s' =>
      refine iff_of_false (fun hnone => by cases hnone) ?_
      rintro rfl
      cases hs
  have hline : ∀ c, isSpace c = false → isLineEnd c = false := by
    intro c hc
    simp only [isSpace, Bool.or_eq_false_iff] at hc
    simp [isLineEnd, hc]
  unfold pluginLibrary
  rw [Option.map_eq_none_iff, hdrop isLineEnd hline, ← hdrop isSpace fun _ hc => hc, words_strtok]
  cases strtok isSpace rest with
  | none => simp
  | some tok => simp

theorem configFileParsePlugin_related (h : Represents c s) {saveptr : Word}
    (hstripped : Stripped saveptr) :
    Related Represents (directiveEffect (configFileParsePlugin saveptr c))
      (applied s (match words saveptr with
        | type :: name :: _ :: _ => some (.plugin type name (behindWord (behindWord saveptr)))
        | _ => none)) := by
  unfold configFileParsePlugin
  rw [words_strtok]
  cases htype : strtok isSpace saveptr with
  | none => exact .stop h
  | some type =>
    dsimp only
    rw [words_strtok]
    cases hname : strtok isSpace type.rest with
    | none => exact .stop h
    | some name =>
      have hnone := pluginLibrary_none ((hstripped.rest htype).rest hname)
      dsimp only
      rw [← strtok_rest htype, ← strtok_rest hname]
      cases hlibrary : pluginLibrary name.rest with
      | none =>
        rw [hnone.mp hlibrary]
        exact .stop h
      | some library =>
        obtain ⟨word, more, hwords⟩ : ∃ word more, words name.rest = word :: more := by
          refine List.exists_cons_of_ne_nil fun hnil => ?_
          rw [hnone.mpr hnil] at hlibrary
          cases hlibrary
        rw [hwords]
        exact plugin_stored h type.text name.text hlibrary

theorem includeEffect_related (h : Represents c s) (lenient : Bool) (saveptr : Word) :
    Related Represents (includeEffect lenient saveptr c)
      (applied s (match words saveptr with
        | [path] => some (.include path lenient)
        | _ => none)) := by
  unfold includeEffect configFileParseName
  rw [words_strtok]
  cases strtok isSpace saveptr with
  | none => exact .stop h
  | some path =>
    dsimp only
    rw [words_strtok]
    cases strtok isSpace path.rest with
    | none => exact .descend
    | some garbage => exact .stop h

/-- The text of an option is cut out behind two words. -/
theorem configFileParseOption_none (rest : Word) :
    configFileParseOption rest rest = none ↔ (words rest).length < 2 := by
  unfold configFileParseOption
  rw [words_strtok]
  cases strtok isSpace rest with
  | none => simp
  | some type =>
    dsimp only
    rw [words_strtok]
    cases strtok isSpace type.rest with
    | none => simp
    | some tok =>
      dsimp only
      split
      · simp
      · simp

theorem optionLine_related (h : Represents c s) {saveline : Word} {tok : Token}
    (htok : strtok isSpace saveline = some tok) :
    Related Represents
      (match configFileParseOption (saveline.drop (tok.skipped + tok.text.length + 1)) tok.rest with
        | none => .stop (-ltfsConfigInvalid) c
        | some entry => .next { c with mountOptions := c.mountOptions ++ [entry] })
      (applied s (match words tok.rest with
        | _ :: _ :: _ => some (.option (behindWord saveline))
        | _ => none)) := by
  have hnone := configFileParseOption_none tok.rest
  rw [strtok_drop htok, ← strtok_rest htok]
  cases hentry : configFileParseOption tok.rest tok.rest with
  | none =>
    have hlength := hnone.mp hentry
    match hwords : words tok.rest with
    | [] => exact .stop h
    | [_] => exact .stop h
    | _ :: _ :: _ =>
      rw [hwords, List.length_cons, List.length_cons] at hlength
      omega
  | some entry =>
    have hlength : ¬ (words tok.rest).length < 2 := by
      rw [← hnone, hentry]
      simp
    match hwords : words tok.rest with
    | [] => simp [hwords] at hlength
    | [_] => simp [hwords] at hlength
    | _ :: _ :: _ => exact .next (option_added h hentry)

/-- A line does the same to the lists as to the settings. -/
theorem configFileParseLine_related (h : Represents c s) (line : Word) :
    Related Represents (configFileParseLine line c) (settingsLine line s) := by
  unfold configFileParseLine settingsLine
  by_cases hlong : line.length = lineSize - 1
  · rw [if_pos hlong, if_pos hlong]
    exact .stop h
  · rw [if_neg hlong, if_neg hlong]
    show Related Represents _ (applied s (directiveOf (stripLine line)))
    unfold directiveOf
    rw [words_strtok]
    dsimp only
    cases htok : strtok isSpace (stripLine line) with
    | none => exact .next h
    | some tok =>
      dsimp only
      have hrest := strtok_rest htok
      -- one directive after the other
      by_cases hplugin : tok.text = "plugin".toList
      · rw [if_pos hplugin, if_pos hplugin, ← hrest]
        exact configFileParsePlugin_related h ((stripLine_stripped line).rest htok)
      rw [if_neg hplugin, if_neg hplugin]
      by_cases hdefault : tok.text = "default".toList
      · rw [if_pos hdefault, if_pos hdefault]
        exact configFileParseDefault_related h tok.rest
      rw [if_neg hdefault, if_neg hdefault]
      by_cases hoption : tok.text = "option".toList
      · rw [if_pos hoption, if_pos hoption]
        exact optionLine_related h htok
      rw [if_neg hoption, if_neg hoption]
      by_cases hinclude : tok.text = "include".toList
      · rw [if_pos hinclude, if_pos hinclude]
        exact includeEffect_related h false tok.rest
      rw [if_neg hinclude, if_neg hinclude]
      by_cases hnoerror : tok.text = "include_noerror".toList
      · rw [if_pos hnoerror, if_pos hnoerror]
        exact includeEffect_related h true tok.rest
      rw [if_neg hnoerror, if_neg hnoerror]
      by_cases hremove : tok.text = "-default".toList
      · rw [if_pos hremove, if_pos hremove]
        exact configFileRemoveDefault_related h tok.rest
      rw [if_neg hremove, if_neg hremove]
      by_cases hunplug : tok.text = "-plugin".toList
      · rw [if_pos hunplug, if_pos hunplug]
        exact configFileRemovePlugin_related h tok.rest
      rw [if_neg hunplug, if_neg hunplug]
      exact .next h

end Represents

/-! ## The text of an option -/

section Option

/-- The text of an option: the rest of the line behind its category. -/
def optionText (rest : Word) : Word := (behindWord rest).dropWhile isSpace

/-- The entry of an option; "-o" stands before mount options that do not have it. -/
def optionMeant (rest : Word) : OptionEntry :=
  let type := (words rest).headD []
  let text := optionText rest
  ⟨type, if isPlainCategory type || text.head? = some '-' then text else "-o".toList ++ text⟩

/-- One white-space character stands between the directive and the category. -/
def Separated (rest : Word) : Prop := rest.takeWhile isSpace = []

/-- What the code cuts out ends in the text, behind as many characters more as stand before the
category, the last of which is white space. -/
theorem option_cut {rest : Word} {type tok : Token} (htype : strtok isSpace rest = some type)
    (htok : strtok isSpace type.rest = some tok) :
    ∃ before, rest.drop (type.text.length + 1 + tok.skipped) = before ++ optionText rest ∧
      before.length = (rest.takeWhile isSpace).length ∧
      ∀ c, before.getLast? = some c → isSpace c = true := by
  obtain ⟨hskipped, tail, hrest, hbehind, htail⟩ := strtok_split htype
  have htext : optionText rest = type.rest.dropWhile isSpace := by
    unfold optionText
    rw [strtok_rest htype]
  obtain ⟨hblanks, tail', hrest', -, -⟩ := strtok_split htok
  -- there is a separator behind the category
  obtain ⟨sep, tail, rfl⟩ : ∃ sep l, tail = sep :: l := by
    cases tail with
    | nil =>
      rw [hbehind] at htok
      cases htok
    | cons sep l => exact ⟨sep, l, rfl⟩
  have hsep : isSpace sep = true := htail sep tail rfl
  have hbehind : type.rest = tail := hbehind
  rw [hbehind] at htext hblanks
  -- all of it up to the text, the last character of which is white space
  have hall : rest = (rest.takeWhile isSpace ++ type.text ++ (sep :: tail.takeWhile isSpace)) ++
      optionText rest := by
    rw [htext]
    nth_rewrite 1 [hrest]
    rw [List.append_assoc, List.append_assoc, List.cons_append, List.takeWhile_append_dropWhile]
  have hlast : ∀ c, (rest.takeWhile isSpace ++ type.text ++ (sep :: tail.takeWhile isSpace)).getLast?
      = some c → isSpace c = true := by
    intro c hc
    have hmem : c ∈ sep :: tail.takeWhile isSpace := by
      rw [List.getLast?_append] at hc
      have hsome : (sep :: tail.takeWhile isSpace).getLast? = some c := by
        cases hl : (sep :: tail.takeWhile isSpace).getLast? with
        | none => simp at hl
        | some d =>
          rw [hl] at hc
          exact hc
      exact List.mem_of_getLast? hsome
    rcases List.mem_cons.mp hmem with rfl | hmem
    · exact hsep
    · exact List.mem_takeWhile_imp hmem
  refine ⟨(rest.takeWhile isSpace ++ type.text ++ (sep :: tail.takeWhile isSpace)).drop
    (type.text.length + 1 + tok.skipped), ?_, ?_, ?_⟩
  · nth_rewrite 1 [hall]
    rw [List.drop_append_of_le_length]
    simp only [List.length_append, List.length_cons, hblanks]
    omega
  · simp only [List.length_drop, List.length_append, List.length_cons, hblanks]
    omega
  · intro c hc
    rw [List.getLast?_drop] at hc
    split at hc
    · cases hc
    · exact hlast c hc

/-- The code stores the text behind the category if and only if one white-space character stands
before the category. -/
theorem optionEntry_iff {rest : Word} (hwords : 2 ≤ (words rest).length) :
    configFileParseOption rest rest = some (optionMeant rest) ↔ Separated rest := by
  have hhead := words_strtok rest
  unfold configFileParseOption
  cases htype : strtok isSpace rest with
  | none =>
    rw [htype] at hhead
    simp [hhead] at hwords
  | some type =>
    rw [htype] at hhead
    dsimp only at hhead ⊢
    cases htok : strtok isSpace type.rest with
    | none =>
      rw [hhead, words_strtok, htok] at hwords
      simp at hwords
    | some tok =>
      dsimp only
      obtain ⟨before, hcut, hlength, hlast⟩ := option_cut htype htok
      have hmeant : optionMeant rest = ⟨type.text, if isPlainCategory type.text ||
          (optionText rest).head? = some '-' then optionText rest
          else "-o".toList ++ optionText rest⟩ := by
        unfold optionMeant
        rw [hhead]
        rfl
      rw [hmeant, hcut]
      unfold Separated
      rw [← List.length_eq_zero_iff, ← hlength, List.length_eq_zero_iff]
      constructor
      · intro heq
        by_contra hne
        have hpos : 0 < before.length := List.length_pos_iff.mpr hne
        have hoption : ∀ x y : Word, (some (⟨type.text, x⟩ : OptionEntry) = some ⟨type.text, y⟩) →
            x = y := fun x y h => by simpa using h
        -- four cases, for the prefix on either side
        split at heq
        · split at heq
          · have h := congrArg List.length (hoption _ _ heq)
            rw [List.length_append] at h
            omega
          · -- the prefix would be what stands before the text
            have h := hoption _ _ heq
            have hopt : before = "-o".toList := by
              have hl := congrArg List.length h
              rw [List.length_append, List.length_append] at hl
              exact List.append_inj_left h (by omega)
            have hspace := hlast 'o' (by rw [hopt]; rfl)
            exact absurd hspace (by decide)
        · split at heq
          · have h := congrArg List.length (hoption _ _ heq)
            rw [List.length_append, List.length_append] at h
            omega
          · have h := congrArg List.length (hoption _ _ heq)
            rw [List.length_append, List.length_append, List.length_append] at h
            omega
      · intro hnil
        rw [hnil, List.nil_append]
        split
        · rfl
        · rfl

end Option

/-! ## The library of a plugin -/

section Library

/-- The library of a plugin: the rest of the line behind the name. -/
def libraryMeant (rest : Word) : Word := (rest.dropWhile isSpace).takeWhile (! isLineEnd ·)

/-- No blank or tab comes behind the separator of the name. -/
def LibrarySeparated (rest : Word) : Prop :=
  ∀ c, (rest.dropWhile isLineEnd).head? = some c → isSpace c = false

theorem isSpace_of_isLineEnd {c : Char} (h : isLineEnd c = true) : isSpace c = true := by
  simp only [isLineEnd, Bool.or_eq_true] at h
  simp only [isSpace, Bool.or_eq_true]
  rcases h with h | h
  · exact .inl (.inr h)
  · exact .inr h

theorem dropWhile_isSpace_isLineEnd (rest : Word) :
    (rest.dropWhile isLineEnd).dropWhile isSpace = rest.dropWhile isSpace := by
  induction rest with
  | nil => rfl
  | cons c rest ih =>
    by_cases hc : isLineEnd c = true
    · rw [List.dropWhile_cons_of_pos hc, ih, List.dropWhile_cons_of_pos (isSpace_of_isLineEnd hc)]
    · rw [List.dropWhile_cons_of_neg hc]

/-- The code stores the library that is meant if and only if it is separated. -/
theorem pluginLibrary_iff {rest library : Word} (h : pluginLibrary rest = some library) :
    library = libraryMeant rest ↔ LibrarySeparated rest := by
  unfold pluginLibrary strtok at h
  unfold libraryMeant LibrarySeparated
  rw [← dropWhile_isSpace_isLineEnd]
  cases hrest : rest.dropWhile isLineEnd with
  | nil =>
    rw [hrest] at h
    cases h
  | cons c tail =>
    rw [hrest] at h
    cases h
    have hc : isLineEnd c = false := by
      have hhead := List.head_dropWhile_not isLineEnd (l := rest) (by rw [hrest]; simp)
      simpa [hrest] using hhead
    simp only [List.head?_cons, Option.some.injEq, forall_eq']
    cases hspace : isSpace c with
    | false =>
      rw [List.dropWhile_cons_of_neg (by simp [hspace])]
      exact iff_of_true rfl rfl
    | true =>
      refine iff_of_false (fun heq => ?_) (by simp)
      rw [List.takeWhile_cons_of_pos (by simp [hc])] at heq
      -- what is meant does not begin with a blank
      have hmem : c ∈ ((c :: tail).dropWhile isSpace).takeWhile (! isLineEnd ·) := by
        rw [← heq]
        exact List.mem_cons_self
      have hne : (c :: tail).dropWhile isSpace ≠ [] := by
        intro hnil
        rw [hnil] at hmem
        cases hmem
      have hhead := List.head_dropWhile_not isSpace hne
      obtain ⟨d, more, hd⟩ := List.exists_cons_of_ne_nil hne
      rw [hd] at heq
      by_cases hend : isLineEnd d = true
      · rw [List.takeWhile_cons_of_neg (by simp [hend])] at heq
        cases heq
      · rw [List.takeWhile_cons_of_pos (by simp [hend])] at heq
        obtain ⟨rfl, -⟩ := List.cons.inj heq
        simp [hd, hspace] at hhead

end Library

/-! ## Loading -/

section Load

variable (fopen : Word → Except ErrorCode Word) (path : Word)

/-- The settings that the directives of a file lead to, with the files it includes, or the error. -/
inductive Specified : Except ℤ Settings → Prop where
  | failed {fuel : ℕ} {ret : ℤ} {s : Settings} :
    runFile (sourceLines fopen) settingsLine fuel false path Settings.empty = some (ret, s) →
    ret < 0 → Specified (.error ret)
  | invalid {fuel : ℕ} {ret : ℤ} {s : Settings} :
    runFile (sourceLines fopen) settingsLine fuel false path Settings.empty = some (ret, s) →
    ¬ ret < 0 → ¬ s.Valid → Specified (.error (-ltfsConfigInvalid))
  | loaded {fuel : ℕ} {ret : ℤ} {s : Settings} :
    runFile (sourceLines fopen) settingsLine fuel false path Settings.empty = some (ret, s) →
    ¬ ret < 0 → s.Valid → Specified (.ok s)

/-- The configuration holds the settings: the maps, and all options with their texts. -/
structure Shows (c : ConfigFile) (s : Settings) : Prop where
  plugins : ∀ type, configFileGetPlugins type c = (s.plugins.filter (·.1 = type)).map Prod.snd
  plugin : ∀ type name, configFileGetLib type name c = (s.plugin type name).map libraryMeant
  default : ∀ type, configFileGetDefaultPlugin type c = s.default type
  options : c.mountOptions = s.options.map optionMeant
  optionsOf : ∀ type, configFileGetOptions type c
    = ((s.options.map optionMeant).filter (·.type = type)).map OptionEntry.option

/-- What is loaded is what is specified. -/
def Agrees : Except LoadError ConfigFile → Prop
  | .error (.ret ret) => Specified fopen path (.error ret)
  | .error .wildRead => False
  | .ok c => ∃ s, Specified fopen path (.ok s) ∧ Shows c s

/-- No file includes itself, not even through others. -/
def Acyclic : Prop :=
  ∀ p, ¬ Relation.TransGen (Names (sourceLines fopen) settingsLine) p p

/-- Loading comes to an end of its own. -/
def LoadEnds : Prop := ∃ fuel r, configFileLoad fopen fuel path = some r ∧ r ≠ .error .wildRead

/-- Loading comes to an end, and without cycles it does what the directives say. -/
def LoadsRight : Prop :=
  LoadEnds fopen path ∧
    (Acyclic fopen → ∀ fuel r, configFileLoad fopen fuel path = some r → Agrees fopen path r)

/-- There is no infinite chain of files each of which is run up to the line that includes the
next. -/
def IncludesEnd : Prop :=
  Acc (CalledBy (sourceLines fopen) settingsLine) (path, Settings.empty)

/-- No directive sets a plugin again that is not the last one. -/
def NothingReset : Prop :=
  ∀ fuel ret s, runFile (sourceLines fopen) settingsLine fuel false path Settings.empty
    = some (ret, s) → s.reset = false

/-- In the plugins that are loaded, one white-space character stands before the library. -/
def LibrariesSeparated : Prop :=
  ∀ s, Specified fopen path (.ok s) → ∀ type name rest, s.plugin type name = some rest →
    LibrarySeparated rest

/-- In the options that are loaded, one white-space character stands behind the directive. -/
def OptionsSeparated : Prop :=
  ∀ s, Specified fopen path (.ok s) → ∀ rest ∈ s.options, Separated rest

variable {fopen path}

variable (fopen path) in
/-- The code goes through the same settings as the directives. -/
theorem configFileParse_represents (fuel : ℕ) (ignoreError : Bool) {c : ConfigFile} {s : Settings}
    (h : Represents c s) :
    Option.Rel (SameResult Represents) (configFileParse fopen fuel path ignoreError c)
      (runFile (sourceLines fopen) settingsLine fuel ignoreError path s) :=
  Lib.Include.runFile_sim (fun line _ _ h => configFileParseLine_related h line) fuel ignoreError
    path c s h

/-- All options have two words at least. -/
theorem Represents.words {c : ConfigFile} {s : Settings} (h : Represents c s) :
    ∀ rest ∈ s.options, 2 ≤ (words rest).length := by
  intro rest hrest
  by_contra hlt
  have hnone := (configFileParseOption_none rest).mpr (by omega)
  have hmem : configFileParseOption rest rest ∈ s.options.map fun r => configFileParseOption r r :=
    List.mem_map_of_mem hrest
  rw [← h.options, hnone, List.mem_map] at hmem
  obtain ⟨e, -, he⟩ := hmem
  cases he

/-- The options of the code are the ones that are meant if and only if all are separated. -/
theorem Represents.options_iff {c : ConfigFile} {s : Settings} (h : Represents c s) :
    c.mountOptions = s.options.map optionMeant ↔ ∀ rest ∈ s.options, Separated rest := by
  have hwords := h.words
  have hmap : c.mountOptions = s.options.map optionMeant ↔
      (s.options.map fun r => configFileParseOption r r)
        = s.options.map fun r => some (optionMeant r) := by
    rw [← h.options]
    constructor
    · intro heq
      rw [heq, List.map_map]
      rfl
    · intro heq
      have hinj : Function.Injective (List.map (some : OptionEntry → Option OptionEntry)) :=
        List.map_injective_iff.mpr (Option.some_injective _)
      apply hinj
      rw [heq, List.map_map]
      rfl
  rw [hmap, List.map_inj_left]
  constructor
  · intro heq rest hrest
    exact (optionEntry_iff (hwords rest hrest)).mp (heq rest hrest)
  · intro hsep rest hrest
    exact (optionEntry_iff (hwords rest hrest)).mpr (hsep rest hrest)

theorem Represents.getPlugins {c : ConfigFile} {s : Settings} (h : Represents c s) (type : Word) :
    configFileGetPlugins type c = (s.plugins.filter (·.1 = type)).map Prod.snd := by
  rw [← h.plugins, List.filter_map, List.map_map]
  rfl

/-- The libraries of the code are the ones that are meant if and only if all are separated. -/
theorem Represents.library_iff {c : ConfigFile} {s : Settings} (h : Represents c s) :
    (∀ type name, configFileGetLib type name c = (s.plugin type name).map libraryMeant) ↔
      ∀ type name rest, s.plugin type name = some rest → LibrarySeparated rest := by
  refine forall₂_congr fun type name => ?_
  have hplugin := h.plugin type name
  cases hrest : s.plugin type name with
  | none => simp [h.plugin_none, hrest]
  | some rest =>
    rw [hrest, Option.map_some] at hplugin
    obtain ⟨library, hlib, hlibrary⟩ := Option.map_eq_some_iff.mp hplugin
    rw [hlib, Option.map_some, Option.some.injEq, pluginLibrary_iff hlibrary.symm]
    simp

/-- The check at the end is about the settings. -/
theorem Represents.valid_iff {c : ConfigFile} {s : Settings} (h : Represents c s) :
    ¬ configFileValidate c < 0 ↔ s.Valid := by
  unfold configFileValidate
  have hall : (c.defaultPlugins.all fun de =>
      (c.plugins.any fun pe => de.type = pe.type ∧ de.name = pe.name) ||
        de.name = "none".toList) = true ↔ s.Valid := by
    rw [List.all_eq_true]
    constructor
    · intro hcheck type name hdefault
      rw [← h.default] at hdefault
      unfold configFileGetDefaultPlugin at hdefault
      rw [Option.map_eq_some_iff] at hdefault
      obtain ⟨de, hfind, rfl⟩ := hdefault
      have htype : de.type = type := by simpa using List.find?_some hfind
      have hde := hcheck de (List.mem_of_find?_eq_some hfind)
      rw [Bool.or_eq_true] at hde
      rcases hde with hplugin | hnone
      · refine .inr ?_
        rw [Ne, ← h.plugin_none, getLib_none, not_not, ← htype]
        rw [List.any_eq_true] at hplugin ⊢
        obtain ⟨pe, hmem, heq⟩ := hplugin
        obtain ⟨h1, h2⟩ := of_decide_eq_true heq
        exact ⟨pe, hmem, decide_eq_true ⟨h1.symm, h2.symm⟩⟩
      · exact .inl (of_decide_eq_true hnone)
    · intro hvalid de hde
      -- the types are distinct, so that each entry is the one found
      have hfind : c.defaultPlugins.find? (·.type = de.type) = some de := by
        have hdistinct := h.distinct
        generalize c.defaultPlugins = l at hde hdistinct
        induction l with
        | nil => cases hde
        | cons e l ih =>
          rw [List.pairwise_cons] at hdistinct
          rcases List.mem_cons.mp hde with rfl | hmem
          · exact List.find?_cons_of_pos (by simp)
          · rw [List.find?_cons_of_neg (by simpa using hdistinct.1 de hmem)]
            exact ih hmem hdistinct.2
      have hdefault : s.default de.type = some de.name := by
        rw [← h.default]
        unfold configFileGetDefaultPlugin
        rw [hfind]
        rfl
      rw [Bool.or_eq_true]
      rcases hvalid de.type de.name hdefault with hnone | hplugin
      · exact .inr (decide_eq_true hnone)
      · refine .inl ?_
        rw [Ne, ← h.plugin_none, getLib_none, not_not] at hplugin
        rw [List.any_eq_true] at hplugin ⊢
        obtain ⟨pe, hmem, heq⟩ := hplugin
        obtain ⟨h1, h2⟩ := of_decide_eq_true heq
        exact ⟨pe, hmem, decide_eq_true ⟨h1.symm, h2.symm⟩⟩
  rw [← hall]
  split
  · rename_i hcheck
    exact ⟨fun _ => hcheck, fun _ => lt_irrefl 0⟩
  · rename_i hcheck
    constructor
    · intro hneg
      exact absurd (by decide) hneg
    · exact fun h => absurd h hcheck

variable (fopen path) in
/-- Code and directives come to an end with the same fuel. -/
theorem configFileLoad_cases (fuel : ℕ) :
    (configFileLoad fopen fuel path = none ∧
      runFile (sourceLines fopen) settingsLine fuel false path Settings.empty = none) ∨
    ∃ ret c s, Represents c s ∧
      runFile (sourceLines fopen) settingsLine fuel false path Settings.empty = some (ret, s) ∧
      configFileLoad fopen fuel path = some (if s.reset then .error .wildRead
        else if ret < 0 then .error (.ret ret)
        else if configFileValidate c < 0 then .error (.ret (configFileValidate c))
        else .ok c) := by
  have hrel := configFileParse_represents fopen path fuel false represents_empty
  unfold configFileLoad
  generalize configFileParse fopen fuel path false ConfigFile.empty = a at hrel
  generalize runFile (sourceLines fopen) settingsLine fuel false path Settings.empty = b at hrel
  cases hrel with
  | none => exact .inl ⟨rfl, rfl⟩
  | @some r r' hsame =>
    obtain ⟨ret, c⟩ := r
    obtain ⟨ret', s⟩ := r'
    obtain ⟨hret, hR⟩ := hsame
    dsimp only at hret hR
    subst hret
    refine .inr ⟨ret, c, s, hR, rfl, ?_⟩
    dsimp only
    rw [hR.wildRead]
    split
    · rfl
    · split
      · rfl
      · split
        · rfl
        · rfl

theorem configFileLoad_ends :
    LoadEnds fopen path ↔ IncludesEnd fopen path ∧ NothingReset fopen path := by
  unfold IncludesEnd
  rw [← Lib.Include.ends_iff false]
  constructor
  · rintro ⟨fuel, r, hload, hr⟩
    rcases configFileLoad_cases fopen path fuel with
      ⟨hnone, -⟩ | ⟨ret, c, s, -, hrun, hload'⟩
    · rw [hnone] at hload
      cases hload
    · refine ⟨⟨fuel, _, hrun⟩, ?_⟩
      intro fuel' ret' s' hrun'
      have hsame := Lib.Include.runFile_unique hrun hrun'
      cases hsame
      by_contra hreset
      rw [hload', if_pos (by simpa using hreset)] at hload
      exact hr (Option.some.inj hload).symm
  · rintro ⟨⟨fuel, r, hrun⟩, hkept⟩
    rcases configFileLoad_cases fopen path fuel with
      ⟨-, hnone⟩ | ⟨ret, c, s, -, hrun', hload⟩
    · rw [hnone] at hrun
      cases hrun
    · refine ⟨fuel, _, hload, ?_⟩
      rw [hkept fuel ret s hrun', if_neg (by simp)]
      split
      · simp
      · split
        · simp
        · simp

theorem configFileValidate_neg {c : ConfigFile} (h : configFileValidate c < 0) :
    configFileValidate c = -ltfsConfigInvalid := by
  unfold configFileValidate at h ⊢
  split at h
  · exact absurd h (lt_irrefl 0)
  · rename_i hcheck
    rw [if_neg hcheck]

/-- A file leads to one result only. -/
theorem Specified.unique {s s' : Settings} (h : Specified fopen path (.ok s))
    (h' : Specified fopen path (.ok s')) : s = s' := by
  cases h with
  | loaded hrun _ _ =>
    cases h' with
    | loaded hrun' _ _ =>
      have heq := Lib.Include.runFile_unique hrun hrun'
      exact congrArg Prod.snd heq

theorem agrees_iff :
    (∀ fuel r, configFileLoad fopen fuel path = some r → Agrees fopen path r) ↔
      NothingReset fopen path ∧ LibrariesSeparated fopen path ∧ OptionsSeparated fopen path := by
  constructor
  · intro hagrees
    have hkept : NothingReset fopen path := by
      intro fuel ret s hrun
      rcases configFileLoad_cases fopen path fuel with
        ⟨-, hnone⟩ | ⟨ret', c, s', -, hrun', hload⟩
      · rw [hnone] at hrun
        cases hrun
      · rw [hrun'] at hrun
        cases hrun
        by_contra hreset
        rw [if_pos (by simpa using hreset)] at hload
        exact hagrees fuel _ hload
    -- of a configuration that is loaded, the lists show what is meant
    have hshows : ∀ s, Specified fopen path (.ok s) →
        ∃ c, Represents c s ∧ Shows c s := by
      intro s hs
      cases hs with
      | @loaded fuel ret s hrun hret hvalid =>
        rcases configFileLoad_cases fopen path fuel with
          ⟨-, hnone⟩ | ⟨ret', c, s', hrep, hrun', hload⟩
        · rw [hnone] at hrun
          cases hrun
        · rw [hrun'] at hrun
          cases hrun
          rw [hkept fuel _ _ hrun', if_neg (by simp), if_neg hret,
            if_neg (hrep.valid_iff.mpr hvalid)] at hload
          obtain ⟨s'', hs'', hshows⟩ := hagrees fuel _ hload
          have hsame := hs''.unique (.loaded hrun' hret hvalid)
          subst hsame
          exact ⟨c, hrep, hshows⟩
    refine ⟨hkept, fun s hs => ?_, fun s hs => ?_⟩
    · obtain ⟨c, hrep, hshow⟩ := hshows s hs
      exact hrep.library_iff.mp hshow.plugin
    · obtain ⟨c, hrep, hshow⟩ := hshows s hs
      exact hrep.options_iff.mp hshow.options
  · rintro ⟨hkept, hlib, hsep⟩ fuel r hload
    rcases configFileLoad_cases fopen path fuel with
      ⟨hnone, -⟩ | ⟨ret, c, s, hrep, hrun, hload'⟩
    · rw [hnone] at hload
      cases hload
    · rw [hload', Option.some.injEq, hkept fuel ret s hrun, if_neg (by simp)] at hload
      subst hload
      by_cases hret : ret < 0
      · rw [if_pos hret]
        exact .failed hrun hret
      · rw [if_neg hret]
        by_cases hinvalid : configFileValidate c < 0
        · rw [if_pos hinvalid, configFileValidate_neg hinvalid]
          exact .invalid hrun hret fun hvalid => hrep.valid_iff.mpr hvalid hinvalid
        · rw [if_neg hinvalid]
          have hspecified : Specified fopen path (.ok s) :=
            .loaded hrun hret (hrep.valid_iff.mp hinvalid)
          have hoptions := hrep.options_iff.mpr (hsep s hspecified)
          refine ⟨s, hspecified, hrep.getPlugins, hrep.library_iff.mpr (hlib s hspecified),
            hrep.default, hoptions, fun type => ?_⟩
          unfold configFileGetOptions
          rw [hoptions]

/-- A configuration is loaded as its directives say if and only if the chains of includes end, no
plugin is set again while others stand behind it, and one white-space character stands before the
libraries and, in the options, between the directive and the category. -/
theorem config_file_load_iff (fopen : Word → Except ErrorCode Word) (path : Word) :
    LoadsRight fopen path ↔
      IncludesEnd fopen path ∧ NothingReset fopen path ∧
        (Acyclic fopen → LibrariesSeparated fopen path ∧ OptionsSeparated fopen path) := by
  unfold LoadsRight
  rw [configFileLoad_ends, agrees_iff]
  constructor
  · rintro ⟨⟨hends, hkept⟩, hright⟩
    exact ⟨hends, hkept, fun hacyclic => (hright hacyclic).2⟩
  · rintro ⟨hends, hkept, hright⟩
    exact ⟨⟨hends, hkept⟩, fun hacyclic => ⟨hkept, hright hacyclic⟩⟩

/-- The chains of includes end in finitely many files without cycles. -/
theorem includesEnd_of_acyclic {fopen : Word → Except ErrorCode Word}
    (hfinite : {p | ∃ content, fopen p = .ok content}.Finite) (hacyclic : Acyclic fopen)
    (path : Word) : IncludesEnd fopen path := by
  unfold IncludesEnd
  rw [← Lib.Include.ends_iff false]
  refine Lib.Include.ends_of_acyclic (hfinite.subset ?_) hacyclic false path Settings.empty
  rintro p ⟨lines, hlines⟩
  unfold sourceLines at hlines
  cases hopen : fopen p with
  | error code =>
    rw [hopen] at hlines
    cases hlines
  | ok content => exact ⟨content, hopen⟩

end Load

section Example

/-! ## A blank too many, a plugin that is set again, and a file that includes itself -/

/-- One file, of one line. -/
def oneFile (line : String) (path : Word) : Except ErrorCode Word :=
  if path = "a".toList then .ok line.toList else .error ⟨-2, by decide⟩

theorem oneFile_lines (line : String) {path : Word} {lines : List Word}
    (h : sourceLines (oneFile line) path = .ok lines) :
    path = "a".toList ∧ lines = fgetsLines line.toList := by
  unfold sourceLines oneFile at h
  by_cases hpath : path = "a".toList
  · rw [if_pos hpath] at h
    cases h
    exact ⟨hpath, rfl⟩
  · rw [if_neg hpath] at h
    cases h

/-- The file stands for itself, so that the chain does not end. -/
theorem includes_itself : ¬ LoadsRight (oneFile "include a") "a".toList := by
  rintro ⟨hends, -⟩
  have hends := (configFileLoad_ends.mp hends).1
  have hcalled : CalledBy (sourceLines (oneFile "include a")) settingsLine
      ("a".toList, Settings.empty) ("a".toList, Settings.empty) :=
    ⟨["include a".toList], rfl, .here rfl⟩
  unfold IncludesEnd at hends
  rw [← Lib.Include.ends_iff false] at hends
  exact Lib.Include.not_ends_of_loop (.single hcalled) false hends

/-- Behind two blanks the option gets a blank in front of its text. -/
theorem two_blanks : ¬ LoadsRight (oneFile "option  single sync_type=unmount") "a".toList := by
  rintro ⟨-, hagrees⟩
  have hline : ∀ s : Settings, settingsLine "option  single sync_type=unmount".toList s
      = .next { s with options := s.options ++ [" single sync_type=unmount".toList] } :=
    fun _ => rfl
  have hnames : ∀ p q,
      ¬ Names (sourceLines (oneFile "option  single sync_type=unmount")) settingsLine p q := by
    rintro p q ⟨lines, hlines, line, hmem, s, lenient, heffect⟩
    obtain ⟨-, rfl⟩ := oneFile_lines _ hlines
    have hmem : line ∈ ["option  single sync_type=unmount".toList] := hmem
    rw [List.mem_singleton] at hmem
    rw [hmem, hline] at heffect
    cases heffect
  have hacyclic : Acyclic (oneFile "option  single sync_type=unmount") := by
    intro p hp
    cases hp with
    | single h => exact hnames _ _ h
    | tail _ h => exact hnames _ _ h
  have hrun : runFile (sourceLines (oneFile "option  single sync_type=unmount")) settingsLine 1 false
      "a".toList Settings.empty
      = some (0, { Settings.empty with options := [" single sync_type=unmount".toList] }) := rfl
  have hvalid : Settings.Valid
      { Settings.empty with options := [" single sync_type=unmount".toList] } := by
    intro type name hdefault
    cases hdefault
  have hsep := (agrees_iff.mp (hagrees hacyclic)).2.2 _ (.loaded hrun (by decide) hvalid)
    " single sync_type=unmount".toList (List.mem_singleton_self _)
  exact absurd hsep (by unfold Separated; decide)

/-- The first of two plugins is set again, and its strings are compared with the second one. -/
theorem plugin_again : ¬ LoadsRight (oneFile "plugin t a x\nplugin t b y\nplugin t a z") "a".toList := by
  rintro ⟨hends, -⟩
  have hkept := (configFileLoad_ends.mp hends).2
  have hreset : ((runFile (sourceLines (oneFile "plugin t a x\nplugin t b y\nplugin t a z"))
      settingsLine 1 false "a".toList Settings.empty).map fun r => r.2.reset) = some true := rfl
  obtain ⟨⟨ret, s⟩, hrun, hs⟩ := Option.map_eq_some_iff.mp hreset
  rw [hkept 1 ret s hrun] at hs
  cases hs

/-- Each part of the condition can fail. -/
theorem load_goes_wrong :
    ¬ LoadsRight (oneFile "option  single sync_type=unmount") "a".toList ∧
    ¬ LoadsRight (oneFile "plugin t a x\nplugin t b y\nplugin t a z") "a".toList ∧
    ¬ LoadsRight (oneFile "include a") "a".toList :=
  ⟨two_blanks, plugin_again, includes_itself⟩

end Example

end Ltfs.Config
