import InvariantProver.Session.Basic

namespace InvariantProver

structure Bare where

namespace Bare

def refuse {α : Type} : Hook Bare α := throw .unsupported

instance : Backend Bare where
  declare _ := refuse
  assert _ := refuse
  push := refuse
  pop := refuse
  check := refuse
  values _ := refuse
  interrupt b := b
  close := pure ()

def session : Session Bare := { name := "base", link := { backend := {} } }

end Bare

end InvariantProver
