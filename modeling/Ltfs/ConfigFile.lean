import Mathlib.Data.List.DropRight
import Ltfs.Lib.Include
import Ltfs.Tape

/-!
# The configuration file

`config_file_load`: the file is read line by line, and a line is cut into tokens by `strtok_r`. The
`option` directive takes its text out of a copy of the line, by the distance of two tokens.

* `fgetsLines` — the lines of a file.
* `strtok` — a token, and what is left behind it.
* `ConfigFile` — the settings, with the functions that look them up.
* `configFileParseLine` — what a line does.
* `configFileLoad` — the file, with all files it includes, and the check at the end. A comparison
  with freed strings is noted in the settings, and the load ends in an error of its own.

A byte is a character. Failures to allocate memory are left out, and the warnings about plugins
whose library is not there.
-/

namespace Ltfs.Config

open Lib.Include (Effect)

/-- `LTFS_CONFIG_INVALID`. -/
def ltfsConfigInvalid : ℤ := 1055

abbrev Word := List Char

/-! ## Lines and tokens -/

/-- The size of the buffer for a line. -/
def lineSize : ℕ := 65536

/-- The lines as `fgets` returns them, with `cur` the beginning of the current one in reverse. -/
def fgetsFrom (cur : Word) : Word → List Word
  | [] => if cur = [] then [] else [cur.reverse]
  | c :: rest =>
    if c = '\n' ∨ cur.length + 1 = lineSize - 1 then (c :: cur).reverse :: fgetsFrom [] rest
    else fgetsFrom (c :: cur) rest

/-- The lines of a file. The buffer is taken as a string. -/
def fgetsLines (content : Word) : List Word :=
  (fgetsFrom [] content).map (List.takeWhile (· ≠ '\x00'))

/-- Blanks, tabs and the ends of lines. -/
def isSpace (c : Char) : Bool := c == ' ' || c == '\t' || c == '\r' || c == '\n'

/-- The ends of lines. -/
def isLineEnd (c : Char) : Bool := c == '\r' || c == '\n'

/-- "Ignore comments and trailing whitespace". -/
def stripLine (line : Word) : Word := (line.takeWhile (· ≠ '#')).rdropWhile isSpace

/-- What `strtok_r` returns, with the number of delimiters skipped, and the string that it leaves for
the next call. -/
structure Token where
  skipped : ℕ
  text : Word
  rest : Word

/-- `strtok_r`. -/
def strtok (delim : Char → Bool) (s : Word) : Option Token :=
  match s.dropWhile delim with
  | [] => none
  | c :: s' =>
    some
      { skipped := (s.takeWhile delim).length
        text := (c :: s').takeWhile (! delim ·)
        -- the delimiter behind it is overwritten
        rest := ((c :: s').dropWhile (! delim ·)).drop 1 }

/-! ## Settings -/

/-- `struct plugin_entry`. -/
structure PluginEntry where
  type : Word
  name : Word
  library : Word
deriving DecidableEq

/-- `struct plugin_entry` of a default plugin, which has no library. -/
structure DefaultEntry where
  type : Word
  name : Word
deriving DecidableEq

/-- `struct option_entry`. -/
structure OptionEntry where
  type : Word
  option : Word
deriving DecidableEq

/-- `struct config_file`, and whether strings that are freed have been compared on the way. -/
structure ConfigFile where
  plugins : List PluginEntry
  defaultPlugins : List DefaultEntry
  mountOptions : List OptionEntry
  wildRead : Bool
deriving DecidableEq

/-- The structure as it is allocated. -/
def ConfigFile.empty : ConfigFile := ⟨[], [], [], false⟩

/-- `config_file_get_default_plugin`. -/
def configFileGetDefaultPlugin (type : Word) (config : ConfigFile) : Option Word :=
  (config.defaultPlugins.find? (·.type = type)).map DefaultEntry.name

/-- `config_file_get_lib`. -/
def configFileGetLib (type name : Word) (config : ConfigFile) : Option Word :=
  (config.plugins.find? fun e => e.type = type ∧ e.name = name).map PluginEntry.library

/-- `config_file_get_plugins`. -/
def configFileGetPlugins (type : Word) (config : ConfigFile) : List Word :=
  (config.plugins.filter (·.type = type)).map PluginEntry.name

/-- `config_file_get_options`. -/
def configFileGetOptions (type : Word) (config : ConfigFile) : List Word :=
  (config.mountOptions.filter (·.type = type)).map OptionEntry.option

/-! ## Directives -/

/-- `_config_file_parse_name`. -/
def configFileParseName (saveptr : Word) : Option Word :=
  match strtok isSpace saveptr with
  | none => none
  | some name =>
    match strtok isSpace name.rest with
    | some _ => none
    | none => some name.text

/-- `_config_file_parse_default`. -/
def configFileParseDefault (saveptr : Word) (config : ConfigFile) : ℤ × ConfigFile :=
  match strtok isSpace saveptr with
  | none => (-ltfsConfigInvalid, config)
  | some type =>
    match strtok isSpace type.rest with
    | none => (-ltfsConfigInvalid, config)
    | some name =>
      match strtok isSpace name.rest with
      -- "Make sure there's no end of line garbage"
      | some _ => (-ltfsConfigInvalid, config)
      | none =>
        let entry := ⟨type.text, name.text⟩
        if config.defaultPlugins.any (·.type = type.text) then
          (0, { config with
            defaultPlugins :=
              config.defaultPlugins.map fun e => if e.type = type.text then entry else e })
        else
          (0, { config with defaultPlugins := config.defaultPlugins ++ [entry] })

/-- `_config_file_remove_default`. -/
def configFileRemoveDefault (saveptr : Word) (config : ConfigFile) : ℤ × ConfigFile :=
  match strtok isSpace saveptr with
  | none => (-ltfsConfigInvalid, config)
  | some type =>
    match strtok isSpace type.rest with
    | some _ => (-ltfsConfigInvalid, config)
    | none =>
      let found := config.defaultPlugins.any (·.type = type.text)
      (if found then 0 else -ltfsConfigInvalid, { config with
        defaultPlugins := config.defaultPlugins.filter (·.type ≠ type.text) })

/-- "Get the driver path". -/
def pluginLibrary (saveptr : Word) : Option Word := (strtok isLineEnd saveptr).map Token.text

/-- The list goes on behind the entry of a plugin. -/
def isFollowed (type name : Word) (l : List PluginEntry) : Bool :=
  !((l.dropWhile fun e => !(e.type = type ∧ e.name = name)).drop 1).isEmpty

/-- `_config_file_parse_plugin`. The loop frees `type` and `name` at the entry it finds, and goes on
to compare them with the entries behind it. -/
def configFileParsePlugin (saveptr : Word) (config : ConfigFile) : ℤ × ConfigFile :=
  match strtok isSpace saveptr with
  | none => (-ltfsConfigInvalid, config)
  | some type =>
    match strtok isSpace type.rest with
    | none => (-ltfsConfigInvalid, config)
    | some name =>
      match pluginLibrary name.rest with
      | none => (-ltfsConfigInvalid, config)
      | some library =>
        if config.plugins.any fun e => e.type = type.text ∧ e.name = name.text then
          (0, { config with
            plugins := config.plugins.map fun e =>
              if e.type = type.text ∧ e.name = name.text then { e with library } else e
            wildRead := config.wildRead || isFollowed type.text name.text config.plugins })
        else
          (0, { config with
            plugins := config.plugins ++ [⟨type.text, name.text, library⟩] })

/-- `_config_file_remove_plugin`. It does not matter whether the plugin is there. -/
def configFileRemovePlugin (saveptr : Word) (config : ConfigFile) : ℤ × ConfigFile :=
  match strtok isSpace saveptr with
  | none => (-ltfsConfigInvalid, config)
  | some type =>
    match strtok isSpace type.rest with
    | none => (-ltfsConfigInvalid, config)
    | some name =>
      match strtok isSpace name.rest with
      | some _ => (-ltfsConfigInvalid, config)
      | none =>
        (0, { config with
          plugins := config.plugins.filter fun e => ! (e.type = type.text ∧ e.name = name.text) })

/-- The categories whose options are no mount options. -/
def isPlainCategory (type : Word) : Bool :=
  type = "adminservice".toList || type = "dcache".toList || type = "startup".toList ||
    type = "snmp".toList

/-- `_config_file_parse_option`; `line` is what stands behind the directive in the copy of the
line. -/
def configFileParseOption (line saveptr : Word) : Option OptionEntry :=
  match strtok isSpace saveptr with
  | none => none
  | some type =>
    match strtok isSpace type.rest with
    | none => none
    | some tok =>
      -- `tok - start`
      let distance := type.text.length + 1 + tok.skipped
      if isPlainCategory type.text || (line.drop distance).head? = some '-' then
        some ⟨type.text, line.drop distance⟩
      else
        some ⟨type.text, "-o".toList ++ line.drop distance⟩

/-- The directive with its result: a negative one ends the file. -/
def directiveEffect (r : ℤ × ConfigFile) : Effect Word ConfigFile :=
  if r.1 < 0 then .stop r.1 r.2 else .next r.2

/-- `include` and `include_noerror`. -/
def includeEffect (lenient : Bool) (saveptr : Word) (config : ConfigFile) : Effect Word ConfigFile :=
  match configFileParseName saveptr with
  | none => .stop (-ltfsConfigInvalid) config
  | some path => .descend path lenient

/-- The loop of `_config_file_parse` for a line. -/
def configFileParseLine (line : Word) (config : ConfigFile) : Effect Word ConfigFile :=
  if line.length = lineSize - 1 then
    .stop (-ltfsConfigInvalid) config
  else
    let saveline := stripLine line
    match strtok isSpace saveline with
    | none => .next config
    | some tok =>
      if tok.text = "plugin".toList then
        directiveEffect (configFileParsePlugin tok.rest config)
      else if tok.text = "default".toList then
        directiveEffect (configFileParseDefault tok.rest config)
      else if tok.text = "option".toList then
        -- `tok - line + strlen(tok) + 1`
        let offset := tok.skipped + tok.text.length + 1
        match configFileParseOption (saveline.drop offset) tok.rest with
        | none => .stop (-ltfsConfigInvalid) config
        | some entry => .next { config with mountOptions := config.mountOptions ++ [entry] }
      else if tok.text = "include".toList then
        includeEffect false tok.rest config
      else if tok.text = "include_noerror".toList then
        includeEffect true tok.rest config
      else if tok.text = "-default".toList then
        directiveEffect (configFileRemoveDefault tok.rest config)
      else if tok.text = "-plugin".toList then
        directiveEffect (configFileRemovePlugin tok.rest config)
      else
        -- a warning
        .next config

/-! ## Loading -/

section Load

variable (fopen : Word → Except ErrorCode Word)

/-- The lines of a file; `fopen` is what opening and reading it returns. -/
def sourceLines (path : Word) : Except ℤ (List Word) :=
  match fopen path with
  | .error code => .error code.1
  | .ok content => .ok (fgetsLines content)

/-- `_config_file_parse`, with the depth of included files as fuel. -/
def configFileParse (fuel : ℕ) (path : Word) (ignoreError : Bool) (config : ConfigFile) :
    Option (ℤ × ConfigFile) :=
  Lib.Include.runFile (sourceLines fopen) configFileParseLine fuel ignoreError path config

/-- `_config_file_validate`. -/
def configFileValidate (config : ConfigFile) : ℤ :=
  if config.defaultPlugins.all fun de =>
      (config.plugins.any fun pe => de.type = pe.type ∧ de.name = pe.name) ||
        de.name = "none".toList then 0
  else -ltfsConfigInvalid

/-- What becomes of a load that does not succeed: it returns a code, or freed strings have been
compared, and anything may have happened since. -/
inductive LoadError where
  | ret (code : ℤ)
  | wildRead
deriving DecidableEq

/-- `config_file_load`. -/
def configFileLoad (fuel : ℕ) (path : Word) : Option (Except LoadError ConfigFile) :=
  match configFileParse fopen fuel path false ConfigFile.empty with
  | none => none
  | some (ret, config) =>
    if config.wildRead then some (.error .wildRead)
    else if ret < 0 then some (.error (.ret ret))
    else if configFileValidate config < 0 then some (.error (.ret (configFileValidate config)))
    else some (.ok config)

end Load

end Ltfs.Config
