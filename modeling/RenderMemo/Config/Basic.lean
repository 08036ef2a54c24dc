import RenderMemo.Text.Blank

namespace RenderMemo

-- How the memoize function is brought into scope. Scripts cannot contain import declarations, so they
-- use `require` in any case.
inductive ImportStyle where
  | require
  | esModule
deriving DecidableEq, Repr

namespace ImportStyle

def text : ImportStyle → String
  | require => "require"
  | esModule => "esModule"

def ofText? (s : String) : Option ImportStyle :=
  if s = "require" then some require
  else if s = "esModule" then some esModule
  else none

@[simp]
theorem ofText?_text (style : ImportStyle) : ofText? style.text = some style := by
  cases style <;> rfl

end ImportStyle

-- The options as they are written down, before they are checked.
structure Settings where
  cacheSize      : UInt64      := 500
  memoizeModule  : String      := "lru-memoize"
  importStyle    : ImportStyle := .require
  dedupeCaptures : Bool        := false
deriving DecidableEq, Repr

-- The options of one run. The cache of a binder holds at least one function, and the memoize function
-- comes from a module whose name does not consist of blanks.
@[ext]
structure Config where
  cacheSize      : UInt64
  memoizeModule  : String
  importStyle    : ImportStyle
  dedupeCaptures : Bool
  cacheSize_pos  : 0 < cacheSize
  module_named   : Text.isAllBlank memoizeModule = false
deriving DecidableEq, Repr

-- Why settings are no valid options.
inductive ConfigError where
  | invalidCacheSize (size : UInt64)
  | emptyMemoizeModule
deriving DecidableEq, Repr

namespace ConfigError

def message : ConfigError → String
  | invalidCacheSize size => "cacheSize must be a positive integer, got " ++ toString size
  | emptyMemoizeModule => "memoizeModule must not be empty"

end ConfigError

namespace Config

def default : Config where
  cacheSize      := 500
  memoizeModule  := "lru-memoize"
  importStyle    := .require
  dedupeCaptures := false
  cacheSize_pos  := by decide
  module_named   := by decide +kernel

instance : Inhabited Config := ⟨default⟩

-- The settings that spell out the options of a run.
def settings (c : Config) : Settings :=
  ⟨c.cacheSize, c.memoizeModule, c.importStyle, c.dedupeCaptures⟩

end Config

-- Checks the cache size first.
def Settings.validate (s : Settings) : Except ConfigError Config :=
  if hs : 0 < s.cacheSize then
    if hm : Text.isAllBlank s.memoizeModule = false then
      .ok ⟨s.cacheSize, s.memoizeModule, s.importStyle, s.dedupeCaptures, hs, hm⟩
    else
      .error .emptyMemoizeModule
  else
    .error (.invalidCacheSize s.cacheSize)

-- Checking keeps all options as they are.
theorem Settings.settings_of_validate {s : Settings} {c : Config} (h : s.validate = .ok c) :
    c.settings = s := by
  unfold Settings.validate at h
  split at h
  case isFalse => simp at h
  case isTrue =>
    split at h <;> simp at h
    subst h
    rfl

theorem Config.validate_settings (c : Config) : c.settings.validate = .ok c := by
  simp [Settings.validate, settings, c.cacheSize_pos, c.module_named]

end RenderMemo
