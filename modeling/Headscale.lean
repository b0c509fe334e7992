import Headscale.Table
import Headscale.Types
import Headscale.Store
import Headscale.Registration
import Headscale.Routes
import Headscale.Sweeps
import Headscale.System
import Headscale.Frame
import Headscale.Owners
import Headscale.Approval
import Headscale.Names
import Headscale.EphemeralSweep
import Headscale.ExpirySweep
import Headscale.RouteOwnership
import Headscale.Primary
import Headscale.Deletion
import Headscale.EphemeralRemoval
import Headscale.EnableRoutes
import Headscale.Lookups
import Headscale.Tags
import Headscale.GivenNames
import Headscale.RouteTable
import Headscale.NodeTable
import Headscale.SweepOrder
