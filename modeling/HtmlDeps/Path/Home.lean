import HtmlDeps.Path.Basic
import HtmlDeps.Text.Quoted

/-!
# Home directories and symbolic links

A relative path whose first part starts with `~` is meant to start at a home directory: `~` alone at
the user's own, `~name` at that of an account.  An absolute path leads through symbolic links to a
real one.

The home directories count for `_under_root` and `resolve_config_path`, the links for the root that
`Watcher.watch` resolves.
-/

namespace HtmlDeps

/-- What is known of home directories. -/
structure Homes where
  own : Option Text              -- the directory that the environment gives for the user
  fallback : Text                -- the directory that the user's account has
  accounts : List (Text × Text)  -- the directory of each account
deriving DecidableEq, Repr, Inhabited

/-- The home directory that a first part starting with `~` asks for, in place of the whole part. -/
def Homes.find? (h : Homes) (part : Text) : Option Text :=
  match part with
  | .char '~' :: user =>
    let dir :=
      if user.isEmpty then some (h.own.getD h.fallback)
      else (h.accounts.find? (·.1 == user)).map (·.2)
    dir.map fun d =>
      match Text.dropTrailing (· == .char '/') d with
      | [] => [.char '/']
      | t => t
  | _ => none

/-- Why no home directory is found. -/
inductive HomeFault where
  | unknown      -- it is not known
  | embeddedNul  -- the name of the account has a NUL
deriving DecidableEq, Repr

def HomeFault.message : HomeFault → Text
  | .unknown => "Could not determine home directory."
  | .embeddedNul => "embedded null byte"

/-- The path with a leading `~` replaced, or `none` if the home directory is not known. -/
def Path.expandHome (h : Homes) (p : Path) : Option Path :=
  match p.anchor, p.parts with
  | .here, (.char '~' :: user) :: rest =>
    match h.find? (.char '~' :: user) with
    | some (.char '~' :: _) => none
    | some dir => some ((Path.ofText dir).extend rest)
    | none => none
  | _, _ => some p

/-- The path with a leading `~` replaced. -/
def Path.atHome (homes : Homes) (p : Path) : Except HomeFault Path :=
  match p.expandHome homes with
  | some q => .ok q
  | none => .error (if p.parts.head?.any (·.contains nul) then .embeddedNul else .unknown)

/-- Why a path leads to no real one. -/
inductive LinkFault where
  | embeddedNul
  | loop (p : Path)  -- a link that leads back to itself
deriving DecidableEq, Repr

def LinkFault.message : LinkFault → Text
  | .embeddedNul => "embedded null byte"
  | .loop p => "Symlink loop from " ++ p.toText.quoted

/-- The symbolic links of a system, by the real path of each absolute path. -/
abbrev Links := Path → Except LinkFault Path

/-- A system without symbolic links. -/
def Links.none : Links := fun p =>
  if p.hasNul then .error .embeddedNul else .ok ⟨.root, p.normal.parts⟩

end HtmlDeps
