import SynQt.Client.QmlPalette
import SynQt.Client.RouteTable

/-! What the client holds of the pages the edge delivered: one component a route, by the hash of the
page it was built from. -/
namespace SynQt

/-- A component, by the order in which the components were made. -/
abbrev ComponentId := Nat

/-- What the client asks of Qt and of the device it runs on. -/
structure ClientEnv where
  qt : QtText
  isLetterOrNumber : QChar → Bool
  /-- A component at the url can be built from the page. -/
  parses : (url page : QString) → Bool
  /-- The members of a JSON text that is an object, and none of another. -/
  jsonObject : QString → QVariantMap
  softwareRendered : Bool

/-- A text in UTF-16, a character outside the basic plane as its two surrogates. -/
def toUtf16 (text : QString) : Text :=
  text.toList.flatMap fun c =>
    if c.toNat < 0x10000 then [UInt16.ofNat c.toNat]
    else [UInt16.ofNat (0xD800 + (c.toNat - 0x10000) / 0x400), UInt16.ofNat (0xDC00 + (c.toNat - 0x10000) % 0x400)]

structure CachedPage where
  hash : QString
  component : ComponentId

structure RemotePageLoader where
  modules : List Text
  pages : QString → Option CachedPage

namespace RemotePageLoader

inductive Outcome where
  | ready
  | notModified
  | rejected
  | failed
  deriving DecidableEq

def deliver (env : ClientEnv) (loader : RemotePageLoader) (component : ComponentId) (route source hash : QString) :
    Outcome × RemotePageLoader :=
  if (loader.pages route).any fun page => page.hash = hash then (.notModified, loader)
  else match QmlPalette.isAcceptable env.isLetterOrNumber loader.modules (toUtf16 source) with
    | .error _ => (.rejected, loader)
    | .ok _ =>
      if env.parses ("synqt://page" ++ route) source then
        (.ready, { loader with pages := Function.update loader.pages route (some ⟨hash, component⟩) })
      else (.failed, loader)

def componentFor (loader : RemotePageLoader) (route : QString) : Option ComponentId :=
  (loader.pages route).map (·.component)

def hashFor (loader : RemotePageLoader) (route : QString) : QString := ((loader.pages route).map (·.hash)).getD ""

def invalidate (loader : RemotePageLoader) (route : QString) : RemotePageLoader :=
  { loader with pages := Function.update loader.pages route none }

def clear (loader : RemotePageLoader) : RemotePageLoader := { loader with pages := fun _ => none }

end RemotePageLoader
end SynQt
